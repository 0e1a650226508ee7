import JackToolchain.Proofs.Jack.Execution
import JackToolchain.Proofs.Vm.Region

/-!
# What compiled statements do

The code of statements takes the machine from any state to another, whatever words its conditions
are, or it is never left. A conditional enters its first branch on any word but 0, while a loop goes
on as long as the bits of its condition inverted are 0.

* `Runs`: what statements do to the machine.
* `leavesIn_of_runs`, `exists_runs_of_leavesIn`: the code of statements is left as they run, and
  only so.
* `leaves_iff_runs`: **code is left exactly as its statements run**, wherever it stands.
-/

namespace JackToolchain.Jack

open Vm

namespace Statement

/-- The condition of a conditional, and the statements for either outcome. -/
def branches? : Statement → Option (Expression × (Bool → List Statement))
  | .ifThen condition body => some (condition, fun b => bif b then body else [])
  | .ifElse condition body alternative =>
    some (condition, fun b => bif b then body else alternative)
  | _ => none

theorem branches?_of_isPlain {x : Statement} (hx : x.isPlain) : x.branches? = none := by
  cases x <;> first | rfl | cases hx

end Statement

/-- The instructions of the value that a `return` returns. -/
def returnedCode (className : String) : Option Expression → List Instruction
  | none => [.push .constant 0]
  | some value => value.code className

/-- Instructions leave a word on top of the stack of a state. -/
def Leaving (lib : Library) (code : List Instruction) (s : State) (v : Word) (t : State) : Prop :=
  lib.Passes code s { t with stack := v :: t.stack }

/-- What statements do to the machine, to their end or to a `return`. A conditional takes any word
but 0 for true. A loop inverts its condition, and stops at any word but 0. -/
inductive Runs (lib : Library) (className : String) : List Statement → State → Exit → State → Prop
  | nil {s} : Runs lib className [] s .ended s
  | plain {x xs s u exit t} (hx : x.isPlain) (hp : lib.Passes (x.code className {}).1 s u)
    (hxs : Runs lib className xs u exit t) : Runs lib className (x :: xs) s exit t
  | return {value xs s t} (hp : lib.Passes (returnedCode className value) s t) :
    Runs lib className (.return value :: xs) s .returned t
  | branchEnds {x xs c branch v s u w exit t} (hx : x.branches? = some (c, branch))
    (hc : Leaving lib (c.code className) s v u)
    (hbranch : Runs lib className (branch (v ≠ 0)) u .ended w)
    (hxs : Runs lib className xs w exit t) : Runs lib className (x :: xs) s exit t
  | branchReturns {x xs c branch v s u t} (hx : x.branches? = some (c, branch))
    (hc : Leaving lib (c.code className) s v u)
    (hbranch : Runs lib className (branch (v ≠ 0)) u .returned t) :
    Runs lib className (x :: xs) s .returned t
  | loopEnds {c body xs v s u exit t} (hc : Leaving lib (c.code className) s v u)
    (hv : lib.not v ≠ 0) (hxs : Runs lib className xs u exit t) :
    Runs lib className (.while c body :: xs) s exit t
  | loopRepeats {c body xs v s u w exit t} (hc : Leaving lib (c.code className) s v u)
    (hv : lib.not v = 0) (hbody : Runs lib className body u .ended w)
    (hxs : Runs lib className (.while c body :: xs) w exit t) :
    Runs lib className (.while c body :: xs) s exit t
  | loopReturns {c body xs v s u t} (hc : Leaving lib (c.code className) s v u)
    (hv : lib.not v = 0) (hbody : Runs lib className body u .returned t) :
    Runs lib className (.while c body :: xs) s .returned t

section

variable {lib : Library} {className : String} {program code rest : List Instruction}
  {start stop pc n m : Nat} {labels : Labels} {i : Instruction} {exit exit' : Exit}
  {s t u w : State} {x : Statement} {xs body : List Statement} {c : Expression} {v : Word}

theorem code_of_isPlain (className : String) (hx : x.isPlain) (labels : Labels) :
    x.code className labels = ((x.code className {}).1, labels) ∧
      (x.code className {}).1.all Instruction.isStraight ∧ (x.code className {}).1 ≠ [] := by
  refine ⟨?_, straight_plain className {} hx, ?_⟩
  · cases x <;> first | rfl | cases hx
  · cases x with
    | assign | assignElement | call => simp [Statement.code]
    | _ => cases hx

/-! ## Where the parts of a statement stand -/

/-- Whether an instruction takes the top of the stack. -/
inductive Takes : Instruction → Prop where
  | not : Takes (.operate .not)
  | ifGoto (name : String) : Takes (.ifGoto name)

/-- The condition before an instruction that takes it leaves a word for it. -/
theorem exists_leaving (hw : Within program start stop pc (c.code className ++ i :: rest))
    (hi : Takes i) (h : LeavesIn lib program start stop n ⟨pc, s⟩ exit t) :
    ∃ v u m, Leaving lib (c.code className) s v u ∧ m ≤ n ∧
      LeavesIn lib program start stop m
        ⟨behind pc (c.code className), { u with stack := v :: u.stack }⟩ exit t := by
  obtain ⟨u, m, hpasses, rfl, hrest⟩ := h.exists_passes hw.left (straight_expression className c)
  have hne : i ≠ .return := by
    rintro rfl
    cases hi
  obtain ⟨stack, store, that, temps⟩ := u
  cases stack with
  | cons v stack => exact ⟨v, ⟨stack, store, that, temps⟩, m, hpasses, by omega, hrest⟩
  | nil =>
    -- without a word on the stack the next instruction is stuck
    obtain ⟨k, d, -, -, hd, -⟩ := hrest.exists_step hw.right hne
    rw [step, hw.right.holds.head] at hd
    cases hi <;> cases hd

/-- Where a branch of a conditional stands: how the machine gets there and how it gets on. -/
structure BranchAt (lib : Library) (className : String) (program : List Instruction)
    (start stop pc : Nat) (labels : Labels) (x : Statement) (c : Expression) (b : Bool)
    (branch : List Statement) (place : Nat) (inner : Labels) (k : Nat) : Prop where
  within : Within program start stop place (statementsCode className inner branch).1
  enter : ∀ s v, decide (v ≠ 0) = b →
    Glides lib program start stop (k + 1)
      ⟨behind pc (c.code className), { s with stack := v :: s.stack }⟩ ⟨place, s⟩
  leave : ∃ j, ∀ s, Glides lib program start stop j
    ⟨behind place (statementsCode className inner branch).1, s⟩
    ⟨behind pc (x.code className labels).1, s⟩

/-- The branches of a conditional stand behind its condition, and the machine goes to one. -/
theorem exists_branchAt (lib : Library) (hn : (labelNames program).Nodup)
    {branch : Bool → List Statement} (hx : x.branches? = some (c, branch))
    (hw : Within program start stop pc (x.code className labels).1) (b : Bool) :
    (∃ i rest, Takes i ∧ Within program start stop pc (c.code className ++ i :: rest)) ∧
      ∃ place inner k, BranchAt lib className program start stop pc labels x c b (branch b)
        place inner k := by
  cases x with
  | ifThen condition body =>
    cases hx
    refine ⟨⟨_, _, .ifGoto _, hw.left.left⟩, ?_⟩
    have hjump := hw.left.left.right
    have hbody := hw.left.right
    have hend := hw.right
    simp only [behind_append] at hbody hend
    cases b with
    | true =>
      refine ⟨_, _, 1, hbody, fun s v hv => ?_, 1, fun s => ?_⟩
      · exact (Glides.ifGoto hn hjump hjump.tail.tail.holds (of_decide_eq_true hv)).trans
          (.label hjump.tail.tail)
      · simp only [Statement.code, behind_append]
        exact .label hend
    | false =>
      refine ⟨_, labels, 2, hend.tail, fun s v hv => ?_, 0, fun s => ?_⟩
      · obtain rfl : v = 0 := by simpa using hv
        exact (Glides.ifGoto_zero hjump).trans
          ((Glides.goto hn hjump.tail hend.holds).trans (.label hend))
      · simp only [Statement.code, behind_append]
        exact .refl _
  | ifElse condition body alternative =>
    cases hx
    refine ⟨⟨_, _, .ifGoto _, hw.left.left.left.left⟩, ?_⟩
    have hjump := hw.left.left.left.left.right
    have hbody := hw.left.left.left.right
    have hskip := hw.left.left.right
    have hother := hw.left.right
    have hend := hw.right
    simp only [behind_append] at hbody hskip hother hend
    cases b with
    | true =>
      refine ⟨_, _, 1, hbody, fun s v hv => ?_, 2, fun s => ?_⟩
      · exact (Glides.ifGoto hn hjump hjump.tail.tail.holds (of_decide_eq_true hv)).trans
          (.label hjump.tail.tail)
      · simp only [Statement.code, behind_append]
        exact (Glides.goto hn hskip hend.holds).trans (.label hend)
    | false =>
      refine ⟨_, _, 2, hother, fun s v hv => ?_, 1, fun s => ?_⟩
      · obtain rfl : v = 0 := by simpa using hv
        exact (Glides.ifGoto_zero hjump).trans
          ((Glides.goto hn hjump.tail hskip.tail.holds).trans (.label hskip.tail))
      · simp only [Statement.code, behind_append]
        exact .label hend
  | assign | assignElement | «while» | call | «return» => cases hx

/-- Where the body of a loop stands, and how the machine goes around. -/
structure LoopAt (lib : Library) (className : String) (program : List Instruction)
    (start stop pc : Nat) (labels : Labels) (c : Expression) (body : List Statement) (place : Nat)
    (inner : Labels) : Prop where
  test : ∃ i rest, Takes i ∧ Within program start stop (pc + 1) (c.code className ++ i :: rest)
  within : Within program start stop place (statementsCode className inner body).1
  enter : ∀ s, Glides lib program start stop 1 ⟨pc, s⟩ ⟨pc + 1, s⟩
  repeats : ∀ (s : State) (v : Word), lib.not v = 0 → Glides lib program start stop 2
    ⟨behind (pc + 1) (c.code className), { s with stack := v :: s.stack }⟩ ⟨place, s⟩
  stops : ∀ (s : State) (v : Word), lib.not v ≠ 0 → Glides lib program start stop 3
    ⟨behind (pc + 1) (c.code className), { s with stack := v :: s.stack }⟩
    ⟨behind pc (Statement.code className labels (.while c body)).1, s⟩
  back : ∀ s, Glides lib program start stop 1
    ⟨behind place (statementsCode className inner body).1, s⟩ ⟨pc, s⟩

theorem exists_loopAt (lib : Library) (hn : (labelNames program).Nodup)
    (hw : Within program start stop pc (Statement.code className labels (.while c body)).1) :
    ∃ place inner, LoopAt lib className program start stop pc labels c body place inner := by
  have hstart := hw.left.left.left.left
  have htest := hw.left.left
  have hnegate := hw.left.left.right
  have hbody := hw.left.right
  have hend := hw.right
  rw [List.append_assoc] at htest
  simp only [behind_append] at hnegate hbody hend
  have hnot : ∀ (s : State) (v : Word), Glides lib program start stop 1
      ⟨behind (pc + 1) (c.code className), { s with stack := v :: s.stack }⟩
      ⟨behind (pc + 1) (c.code className) + 1, { s with stack := lib.not v :: s.stack }⟩ :=
    fun s v => .not hnegate v
  refine ⟨_, _, ⟨_, _, .not, htest.right⟩, hbody, fun s => .label hstart, fun s v hv => ?_,
    fun s v hv => ?_, fun s => ?_⟩
  · refine (hnot s v).trans ?_
    rw [hv]
    exact .ifGoto_zero hnegate.tail
  · simp only [Statement.code, behind_append]
    exact (hnot s v).trans (.trans (.ifGoto hn hnegate.tail hend.tail.holds hv) (.label hend.tail))
  · exact .goto hn hend hstart.holds

/-! ## Statements run as their code is left -/

/-- What follows statements that have run to their end or to a `return`: from their end the machine
leaves the code around them, and at the `return` it has left that. -/
def Continues (lib : Library) (program : List Instruction) (start stop n place : Nat) :
    Exit → State → Exit → State → Prop
  | .ended, u, exit, t => LeavesIn lib program start stop n ⟨place, u⟩ exit t
  | .returned, u, exit, t => exit = .returned ∧ t = u

theorem Continues.mono {place : Nat}
    (h : Continues lib program start stop m place exit' u exit t) (hle : m ≤ n) :
    Continues lib program start stop n place exit' u exit t := by
  cases exit' with
  | ended => exact LeavesIn.mono h hle
  | returned => exact h

theorem within_first
    (hw : Within program start stop pc (statementsCode className labels (x :: xs)).1) :
    Within program start stop pc (x.code className labels).1 :=
  hw.left

theorem within_others
    (hw : Within program start stop pc (statementsCode className labels (x :: xs)).1) :
    Within program start stop (behind pc (x.code className labels).1)
      (statementsCode className (x.code className labels).2 xs).1 :=
  hw.right

theorem behind_statements (pc : Nat) (x : Statement) (xs : List Statement) :
    behind pc (statementsCode className labels (x :: xs)).1 =
      behind (behind pc (x.code className labels).1)
        (statementsCode className (x.code className labels).2 xs).1 :=
  behind_append ..

theorem code_return (value : Option Expression) :
    (Statement.code className labels (.return value)).1 =
      returnedCode className value ++ [.return] := by
  cases value <;> rfl

/-- **The code of statements is left as they run.** -/
theorem leaves_of_runs (hn : (labelNames program).Nodup)
    (hr : Runs lib className xs s exit' u)
    (hw : Within program start stop pc (statementsCode className labels xs).1)
    (hc : Continues lib program start stop m (behind pc (statementsCode className labels xs).1)
      exit' u exit t) : Leaves lib program start stop ⟨pc, s⟩ exit t := by
  -- on the run, for any place of the code: a loop that repeats is run again where it stands
  induction hr generalizing labels pc m exit t with
  | nil => exact ⟨m, hc⟩
  | @plain x xs s u exit' w hx hp _ ih =>
    have hfirst := within_first hw
    rw [behind_statements] at hc
    obtain ⟨k, hk⟩ := ih (within_others hw) hc
    obtain ⟨hcode, -, -⟩ := code_of_isPlain className hx labels
    rw [hcode] at hfirst hk
    exact ⟨_, .of_passes hfirst hp hk⟩
  | @«return» value xs s u hp =>
    obtain ⟨rfl, rfl⟩ := hc
    have hfirst := within_first hw
    rw [code_return] at hfirst
    have hreturn := hfirst.right
    have hout : LeavesIn lib program start stop 0
        ⟨behind pc (returnedCode className value), t⟩ .returned t :=
      .returned hreturn.inside hreturn.holds.head
    exact ⟨_, .of_passes hfirst.left hp hout⟩
  | @branchEnds x xs c branch v s u w exit' w' hx htest _ _ hbranch hxs =>
    obtain ⟨⟨i, rest, -, htaken⟩, place, inner, k, hat⟩ :=
      exists_branchAt lib hn hx (within_first hw) (v ≠ 0)
    rw [behind_statements] at hc
    obtain ⟨m, hout⟩ := hxs (within_others hw) hc
    -- from the end of the branch the machine gets to the statements behind
    obtain ⟨j, hleave⟩ := hat.leave
    have hbehind := (hleave w _ _ _).2 ⟨m, rfl, hout⟩
    obtain ⟨m, hout⟩ := hbranch hat.within hbehind
    exact ⟨_, .of_passes htaken.left htest ((hat.enter u v rfl _ _ _).2 ⟨m, rfl, hout⟩)⟩
  | @branchReturns x xs c branch v s u w hx htest _ hbranch =>
    obtain ⟨⟨i, rest, -, htaken⟩, place, inner, k, hat⟩ :=
      exists_branchAt lib hn hx (within_first hw) (v ≠ 0)
    obtain ⟨m, hout⟩ := hbranch (m := m) hat.within hc
    exact ⟨_, .of_passes htaken.left htest ((hat.enter u v rfl _ _ _).2 ⟨m, rfl, hout⟩)⟩
  | @loopEnds c body xs v s u exit' w htest hv _ hxs =>
    obtain ⟨place, inner, hat⟩ := exists_loopAt lib hn (within_first hw)
    obtain ⟨i, rest, -, htaken⟩ := hat.test
    rw [behind_statements] at hc
    obtain ⟨m, hout⟩ := hxs (within_others hw) hc
    have htested := LeavesIn.of_passes htaken.left htest ((hat.stops u v hv _ _ _).2 ⟨m, rfl, hout⟩)
    exact ⟨_, (hat.enter s _ _ _).2 ⟨_, rfl, htested⟩⟩
  | @loopRepeats c body xs v s u w exit' w' htest hv _ _ hbody hxs =>
    obtain ⟨place, inner, hat⟩ := exists_loopAt lib hn (within_first hw)
    obtain ⟨i, rest, -, htaken⟩ := hat.test
    -- the loop is run again from where it stands, once its body has ended
    obtain ⟨m, hout⟩ := hxs hw hc
    have hbehind := (hat.back w _ _ _).2 ⟨m, rfl, hout⟩
    obtain ⟨m, hout⟩ := hbody hat.within hbehind
    have hagain := (hat.repeats u v hv _ _ _).2 ⟨m, rfl, hout⟩
    have htested := LeavesIn.of_passes htaken.left htest hagain
    exact ⟨_, (hat.enter s _ _ _).2 ⟨_, rfl, htested⟩⟩
  | @loopReturns c body xs v s u w htest hv _ hbody =>
    obtain ⟨place, inner, hat⟩ := exists_loopAt lib hn (within_first hw)
    obtain ⟨i, rest, -, htaken⟩ := hat.test
    obtain ⟨m, hout⟩ := hbody (m := m) hat.within hc
    have hagain := (hat.repeats u v hv _ _ _).2 ⟨m, rfl, hout⟩
    have htested := LeavesIn.of_passes htaken.left htest hagain
    exact ⟨_, (hat.enter s _ _ _).2 ⟨_, rfl, htested⟩⟩

/-- Code of statements that is left within a number of steps is left as they run. -/
def Traced (lib : Library) (className : String) (program : List Instruction) (start stop : Nat)
    (exit : Exit) (t : State) (n : Nat) : Prop :=
  ∀ xs labels pc s, Within program start stop pc (statementsCode className labels xs).1 →
    LeavesIn lib program start stop n ⟨pc, s⟩ exit t →
    ∃ exit' u, Runs lib className xs s exit' u ∧ Continues lib program start stop n
      (behind pc (statementsCode className labels xs).1) exit' u exit t

/-- Behind its first statement a run goes on with the others. -/
theorem Traced.others (ih : ∀ m < n, Traced lib className program start stop exit t m)
    (hw : Within program start stop pc (statementsCode className labels (x :: xs)).1) (hm : m < n)
    (hout : LeavesIn lib program start stop m ⟨behind pc (x.code className labels).1, w⟩ exit t) :
    ∃ exit' u, Runs lib className xs w exit' u ∧ Continues lib program start stop n
      (behind pc (statementsCode className labels (x :: xs)).1) exit' u exit t := by
  obtain ⟨exit', u, hruns, hc⟩ := ih m hm xs _ _ w (within_others hw) hout
  rw [behind_statements]
  exact ⟨exit', u, hruns, hc.mono (Nat.le_of_lt hm)⟩

/-- A conditional goes on with one of its branches, and from there with what follows it. -/
theorem Traced.conditional (hn : (labelNames program).Nodup) {branch : Bool → List Statement}
    (ih : ∀ m < n, Traced lib className program start stop exit t m)
    (hx : x.branches? = some (c, branch))
    (hw : Within program start stop pc (statementsCode className labels (x :: xs)).1)
    (h : LeavesIn lib program start stop n ⟨pc, s⟩ exit t) :
    ∃ exit' u, Runs lib className (x :: xs) s exit' u ∧ Continues lib program start stop n
      (behind pc (statementsCode className labels (x :: xs)).1) exit' u exit t := by
  obtain ⟨⟨i, rest, hi, htest⟩, -⟩ :=
    exists_branchAt lib hn hx (within_first hw) true
  obtain ⟨v, u, m, hc, hm, htested⟩ := exists_leaving htest hi h
  obtain ⟨-, place, inner, k, hat⟩ :=
    exists_branchAt lib hn hx (within_first hw) (v ≠ 0)
  obtain ⟨m', rfl, hbegin⟩ := (hat.enter u v rfl _ _ _).1 htested
  have hlt : m' < n := by omega
  obtain ⟨exit', w, hbranch, hcontinues⟩ := ih m' hlt _ _ _ u hat.within hbegin
  cases exit' with
  | returned => exact ⟨.returned, w, .branchReturns hx hc hbranch, hcontinues⟩
  | ended =>
    obtain ⟨j, hleave⟩ := hat.leave
    obtain ⟨m'', rfl, hout⟩ := (hleave w _ _ _).1 hcontinues
    have hlt : m'' < n := by omega
    obtain ⟨exit', w', hruns, hcontinues⟩ := Traced.others ih hw hlt hout
    exact ⟨exit', w', .branchEnds hx hc hbranch hruns, hcontinues⟩

/-- A loop goes on with its body and is run again, or with what follows it. -/
theorem Traced.loop (hn : (labelNames program).Nodup)
    (ih : ∀ m < n, Traced lib className program start stop exit t m)
    (hw : Within program start stop pc (statementsCode className labels (.while c body :: xs)).1)
    (h : LeavesIn lib program start stop n ⟨pc, s⟩ exit t) :
    ∃ exit' u, Runs lib className (.while c body :: xs) s exit' u ∧
      Continues lib program start stop n
        (behind pc (statementsCode className labels (.while c body :: xs)).1) exit' u exit t := by
  obtain ⟨place, inner, hat⟩ := exists_loopAt lib hn (within_first hw)
  obtain ⟨i, rest, hi, htest⟩ := hat.test
  obtain ⟨k, rfl, htested⟩ := (hat.enter s _ _ _).1 h
  obtain ⟨v, u, m, hc, hm, hdecided⟩ := exists_leaving htest hi htested
  by_cases hv : lib.not v = 0
  · obtain ⟨m', rfl, hbegin⟩ := (hat.repeats u v hv _ _ _).1 hdecided
    have hlt : m' < k + 1 := by omega
    obtain ⟨exit', w, hbody, hcontinues⟩ := ih m' hlt _ _ _ u hat.within hbegin
    cases exit' with
    | returned => exact ⟨.returned, w, .loopReturns hc hv hbody, hcontinues⟩
    | ended =>
      obtain ⟨m'', rfl, hagain⟩ := (hat.back w _ _ _).1 hcontinues
      have hlt : m'' < k + 1 := by omega
      obtain ⟨exit', w', hruns, hcontinues⟩ := ih m'' hlt _ _ _ w hw hagain
      exact ⟨exit', w', .loopRepeats hc hv hbody hruns, hcontinues.mono (Nat.le_of_lt hlt)⟩
  · obtain ⟨m', rfl, hout⟩ := (hat.stops u v hv _ _ _).1 hdecided
    have hlt : m' < k + 1 := by omega
    obtain ⟨exit', w, hruns, hcontinues⟩ := Traced.others ih hw hlt hout
    exact ⟨exit', w, .loopEnds hc hv hruns, hcontinues⟩

/-- A statement without statements inside is passed. -/
theorem Traced.plain (ih : ∀ m < n, Traced lib className program start stop exit t m)
    (hx : x.isPlain)
    (hw : Within program start stop pc (statementsCode className labels (x :: xs)).1)
    (h : LeavesIn lib program start stop n ⟨pc, s⟩ exit t) :
    ∃ exit' u, Runs lib className (x :: xs) s exit' u ∧ Continues lib program start stop n
      (behind pc (statementsCode className labels (x :: xs)).1) exit' u exit t := by
  have hfirst := within_first hw
  obtain ⟨hcode, hstraight, hne⟩ := code_of_isPlain className hx labels
  rw [hcode] at hfirst
  obtain ⟨u, m, hpasses, rfl, hout⟩ := h.exists_passes hfirst hstraight
  have hlength := List.length_pos_iff.2 hne
  have hlt : m < m + (x.code className {}).1.length := by omega
  rw [← congrArg Prod.fst hcode] at hout
  obtain ⟨exit', w, hruns, hcontinues⟩ := Traced.others ih hw hlt hout
  exact ⟨exit', w, .plain hx hpasses hruns, hcontinues⟩

/-- A value is left behind for a `return`. -/
theorem Traced.return {value : Option Expression}
    (hw : Within program start stop pc (statementsCode className labels (.return value :: xs)).1)
    (h : LeavesIn lib program start stop n ⟨pc, s⟩ exit t) :
    ∃ exit' u, Runs lib className (.return value :: xs) s exit' u ∧
      Continues lib program start stop n
        (behind pc (statementsCode className labels (.return value :: xs)).1) exit' u exit t := by
  have hfirst := within_first hw
  rw [code_return] at hfirst
  have hstraight : (returnedCode className value).all Instruction.isStraight := by
    cases value with
    | none => rfl
    | some value => exact straight_expression className value
  obtain ⟨u, m, hpasses, -, hout⟩ := h.exists_passes hfirst.left hstraight
  exact ⟨.returned, u, .return hpasses, hout.at_return hfirst.right⟩

/-- **Code of statements is left only as they run.** -/
theorem traced (hn : (labelNames program).Nodup) (exit : Exit) (t : State) (n : Nat) :
    Traced lib className program start stop exit t n := by
  -- on the number of steps: every statement takes one before those inside and behind it
  induction n using Nat.strongRecOn with
  | _ n ih =>
    intro xs labels pc s hw h
    cases xs with
    | nil => exact ⟨.ended, s, .nil, h⟩
    | cons x xs =>
      cases x with
      | assign | assignElement | call => exact Traced.plain ih rfl hw h
      | ifThen | ifElse => exact Traced.conditional hn ih rfl hw h
      | «while» c body => exact Traced.loop hn ih hw h
      | «return» value => exact Traced.return hw h

/-- **Code is left exactly as its statements run**, wherever it stands. -/
theorem leaves_iff_runs (hn : (labelNames program).Nodup)
    (hp : Holds program pc (statementsCode className labels xs).1) :
    Leaves lib program pc (behind pc (statementsCode className labels xs).1) ⟨pc, s⟩ exit t ↔
      Runs lib className xs s exit t := by
  have hw : Within program pc (behind pc (statementsCode className labels xs).1) pc
      (statementsCode className labels xs).1 := ⟨hp, Nat.le_refl _, Nat.le_refl _⟩
  constructor
  · rintro ⟨n, hout⟩
    obtain ⟨exit', u, hruns, hcontinues⟩ := traced hn exit t n xs labels pc s hw hout
    cases exit' with
    | ended =>
      obtain ⟨rfl, rfl⟩ := LeavesIn.at_stop hcontinues
      exact hruns
    | returned =>
      obtain ⟨rfl, rfl⟩ := hcontinues
      exact hruns
  · intro hruns
    refine leaves_of_runs (m := 0) hn hruns hw ?_
    cases exit with
    | ended => exact .ended
    | returned => exact ⟨rfl, rfl⟩

end

end JackToolchain.Jack
