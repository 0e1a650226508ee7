import JackToolchain.Proofs.Jack.Derivation.Statement
import JackToolchain.Proofs.Jack.Evaluation
import JackToolchain.Proofs.Jack.Labels

/-!
# Statements keep their meaning

Statements are executed on the trees that their tokens spell. A condition is 0 or -1, and a
subroutine without a result returns 0. Their code runs inside the code of a subroutine,
from a stack without operands. It does the same as long as no call has more values than 16 bits
count.

* `Exec`: what statements do to the store, and what they return if they do.
* `Simulates`: the code of statements does the same on the machine.
* `finishes_statements`: **the code of statements does what they do**.
* `finishes_statements_miscounted`: a call of 65536 arguments is not returned alone.
-/

namespace JackToolchain.Jack

open Vm Grammar

/-- The store after a value is assigned to a variable. -/
def Variable.assign (v : Variable) (w : Word) (σ : Store) : Store :=
  match v.kind with
  | .static => { σ with statics := Function.update σ.statics v.index.toNat w }
  | .field => { σ with heap := Function.update σ.heap (σ.this + BitVec.ofNat 16 v.index.toNat) w }
  | .argument => { σ with arguments := Function.update σ.arguments v.index.toNat w }
  | .local => { σ with locals := Function.update σ.locals v.index.toNat w }

namespace Grammar

section execution

variable (μ : Meaning) (h : Header)

/-- The value of an expression and the store behind it. -/
def Expr.run (e : Expr) (σ : Store) : Option (Word × Store) :=
  (e.eval μ h σ.toFrame σ.toMemory).map fun (v, m) => (v, { σ with toMemory := m })

/-- The store behind a statement that has no statements inside and returns nothing. An
assignment to an element finds its address before the value, and writes after it. -/
def Stmt.perform : Stmt → Store → Option Store
  | .assign name value, σ => do
    let v ← h.scope.find? name
    let (w, σ) ← value.run μ h σ
    return v.assign w σ
  | .assignElement array index value, σ => do
    let v ← h.scope.find? array
    let (i, σ) ← index.run μ h σ
    let address := μ.add i (v.value σ.toFrame σ.toMemory)
    let (w, σ) ← value.run μ h σ
    return { σ with heap := Function.update σ.heap address w }
  | .call callee arguments, σ => do
    let (_, σ) ← (Expr.mk (.call callee arguments) .nil).run μ h σ
    return σ
  | .ifThen .., _ | .ifElse .., _ | .while .., _ | .return _, _ => none

/-- The condition of a conditional, and the statements for either truth value. -/
def Stmt.branches? : Stmt → Option (Expr × (Bool → List Stmt))
  | .ifThen condition body => some (condition, fun b => bif b then body else [])
  | .ifElse condition body alternative =>
    some (condition, fun b => bif b then body else alternative)
  | _ => none

open Arithmetic in
/-- Statements are executed from a store to another: to their end, or to a `return`, with
the value that it returns. -/
inductive Exec : List Stmt → Store → Option Word → Store → Prop where
  | nil {σ} : Exec [] σ none σ
  | perform {s ss σ σ₁ outcome τ} (hs : s.perform μ h σ = some σ₁)
    (hss : Exec ss σ₁ outcome τ) : Exec (s :: ss) σ outcome τ
  | returnNothing {ss σ} : Exec (.return none :: ss) σ (some 0) σ
  | returnValue {e ss σ v τ} (he : e.run μ h σ = some (v, τ)) :
    Exec (.return (some e) :: ss) σ (some v) τ
  | branchEnds {s ss c branch b σ σ₁ σ₂ outcome τ} (hs : s.branches? = some (c, branch))
    (hc : c.run μ h σ = some (truth b, σ₁)) (hbranch : Exec (branch b) σ₁ none σ₂)
    (hss : Exec ss σ₂ outcome τ) : Exec (s :: ss) σ outcome τ
  | branchReturns {s ss c branch b σ σ₁ v τ} (hs : s.branches? = some (c, branch))
    (hc : c.run μ h σ = some (truth b, σ₁)) (hbranch : Exec (branch b) σ₁ (some v) τ) :
    Exec (s :: ss) σ (some v) τ
  | loopEnds {c body ss σ σ₁ outcome τ} (hc : c.run μ h σ = some (truth false, σ₁))
    (hss : Exec ss σ₁ outcome τ) : Exec (.while c body :: ss) σ outcome τ
  | loopRepeats {c body ss σ σ₁ σ₂ outcome τ} (hc : c.run μ h σ = some (truth true, σ₁))
    (hbody : Exec body σ₁ none σ₂) (hss : Exec (.while c body :: ss) σ₂ outcome τ) :
    Exec (.while c body :: ss) σ outcome τ
  | loopReturns {c body ss σ σ₁ v τ} (hc : c.run μ h σ = some (truth true, σ₁))
    (hbody : Exec body σ₁ (some v) τ) : Exec (.while c body :: ss) σ (some v) τ

end execution

end Grammar

/-! ## Statements without statements inside -/

section straight

variable {μ : Meaning} {h : Header} {σ τ : Store}

theorem exec_run {e : Expr} {x : Expression} {w : Word} (he : e.run μ h σ = some (w, τ))
    (hx : e.tree? h = some x) (hfits : ∀ call ∈ e.calls, call.Fits h) (stack : List Word)
    (that : Word) (temps : Nat → Word) :
    ∃ that', exec μ (x.code h.className) ⟨stack, σ, that, temps⟩ =
      some ⟨w :: stack, τ, that', temps⟩ := by
  obtain ⟨v, m, hv, hcode⟩ := replaces_expression (μ := μ) (f := σ.toFrame) e σ.toMemory hx hfits
  unfold Expr.run at he
  rw [hv] at he
  cases he
  exact hcode stack that temps

theorem exec_pop_variable (v : Variable) (w : Word) (stack : List Word) (that : Word)
    (temps : Nat → Word) :
    exec μ [v.pop] ⟨w :: stack, σ, that, temps⟩ = some ⟨stack, v.assign w σ, that, temps⟩ := by
  unfold Variable.pop Variable.assign
  cases v.kind <;> rfl

/-- A value is written to the address below it. -/
theorem exec_write (w address : Word) (stack : List Word) (that : Word) (temps : Nat → Word) :
    exec μ [.pop .temp 0, .pop .pointer 1, .push .temp 0, .pop .that 0]
      ⟨w :: address :: stack, σ, that, temps⟩ =
      some ⟨stack, { σ with heap := Function.update σ.heap address w }, address,
        Function.update temps 0 w⟩ := by
  simp [exec, effect, State.read?, State.write?]

/-- The code of a statement without statements inside does what it does. -/
theorem exec_perform {s : Stmt} {x : Statement} (hs : s.perform μ h σ = some τ)
    (hx : s.tree? h = some x) (hfits : ∀ call ∈ s.calls, call.Fits h) (labels : Labels)
    (that : Word) (temps : Nat → Word) :
    ∃ that' temps', exec μ (x.code h.className labels).1 ⟨[], σ, that, temps⟩ =
      some ⟨[], τ, that', temps'⟩ := by
  cases s with
  | assign name value =>
    obtain ⟨v, hv, hs⟩ := Option.bind_eq_some_iff.1 hs
    obtain ⟨⟨w, σ₁⟩, hw, hs⟩ := Option.bind_eq_some_iff.1 hs
    obtain ⟨v', hv', hx⟩ := Option.bind_eq_some_iff.1 hx
    obtain ⟨e, he, hx⟩ := Option.bind_eq_some_iff.1 hx
    cases hs
    cases hx
    obtain rfl : v' = v := Option.some.inj (hv'.symm.trans hv)
    obtain ⟨that', hcode⟩ := exec_run hw he hfits [] that temps
    refine ⟨that', temps, ?_⟩
    rw [Statement.code, exec_append, hcode, Option.bind_some, exec_pop_variable]
  | assignElement array index value =>
    obtain ⟨v, hv, hs⟩ := Option.bind_eq_some_iff.1 hs
    obtain ⟨⟨i, σ₁⟩, hi, hs⟩ := Option.bind_eq_some_iff.1 hs
    obtain ⟨⟨w, σ₂⟩, hw, hs⟩ := Option.bind_eq_some_iff.1 hs
    obtain ⟨v', hv', hx⟩ := Option.bind_eq_some_iff.1 hx
    obtain ⟨ei, hei, hx⟩ := Option.bind_eq_some_iff.1 hx
    obtain ⟨ew, hew, hx⟩ := Option.bind_eq_some_iff.1 hx
    cases hs
    cases hx
    obtain rfl : v' = v := Option.some.inj (hv'.symm.trans hv)
    obtain ⟨hindexFits, hvalueFits⟩ := List.forall_mem_append.1 hfits
    obtain ⟨that₁, hindex⟩ := exec_run hi hei hindexFits [] that temps
    -- the address is found before the value, and waits below it
    have haddress : exec μ [v'.push, .operate .add] ⟨[i], σ₁, that₁, temps⟩ =
        some ⟨[μ.add i (v'.value σ₁.toFrame σ₁.toMemory)], σ₁, that₁, temps⟩ := by
      unfold Variable.push Variable.value
      cases v'.kind <;> rfl
    obtain ⟨that₂, hvalue⟩ :=
      exec_run hw hew hvalueFits [μ.add i (v'.value σ₁.toFrame σ₁.toMemory)] that₁ temps
    refine ⟨μ.add i (v'.value σ₁.toFrame σ₁.toMemory), Function.update temps 0 w, ?_⟩
    rw [Statement.code, exec_append, exec_append, exec_append, hindex, Option.bind_some, haddress,
      Option.bind_some, hvalue, Option.bind_some, exec_write]
  | call callee arguments =>
    obtain ⟨⟨w, σ₁⟩, hw, hs⟩ := Option.bind_eq_some_iff.1 hs
    obtain ⟨⟨target, name⟩, hc, hx⟩ := Option.bind_eq_some_iff.1 hx
    obtain ⟨values, ha, hx⟩ := Option.bind_eq_some_iff.1 hx
    cases hs
    cases hx
    have htree : (Expr.mk (.call callee arguments) .nil).tree? h =
        some (.call target name values) := by
      simp [Expr.tree?, Term.tree?, Chain.tree?, hc, ha]
    have hcalls : ∀ call ∈ (Expr.mk (.call callee arguments) .nil).calls, call.Fits h := by
      simpa [Expr.calls, Term.calls, Chain.calls, Stmt.calls] using hfits
    obtain ⟨that', hcode⟩ := exec_run hw htree hcalls [] that temps
    refine ⟨that', Function.update temps 0 w, ?_⟩
    rw [Statement.code, callCode, exec_append, hcode, Option.bind_some]
    simp [exec, effect, State.write?]
  | ifThen | ifElse | «while» | «return» => cases hs

end straight

/-! ## Runs of the machine -/

/-- From a configuration the machine gets to the end of code with no operands, or to a
`return` in the code with the returned value as its only operand. -/
def Finishes (μ : Meaning) (program : List Instruction) (start : Nat) (code : List Instruction)
    (c : Config) (outcome : Option Word) (τ : Store) : Prop :=
  match outcome with
  | none => ∃ that temps, Reaches μ program c ⟨behind start code, ⟨[], τ, that, temps⟩⟩
  | some v => ∃ pc that temps, start ≤ pc ∧ pc < behind start code ∧
      program[pc]? = some .return ∧ Reaches μ program c ⟨pc, ⟨[v], τ, that, temps⟩⟩

/-- Wherever the code of statements stands, it gets the machine from a store to another, if their
calls fit. -/
def Simulates (μ : Meaning) (h : Header) (program : List Instruction) (ss : List Stmt) (σ : Store)
    (outcome : Option Word) (τ : Store) : Prop :=
  ∀ xs labels pc, statementsTree? h ss = some xs → (∀ call ∈ statementsCalls ss, call.Fits h) →
    Holds program pc (statementsCode h.className labels xs).1 → ∀ that temps,
    Finishes μ program pc (statementsCode h.className labels xs).1
      ⟨pc, ⟨[], σ, that, temps⟩⟩ outcome τ

section runs

variable {μ : Meaning} {h : Header} {program code part : List Instruction} {start start' pc : Nat}
  {c d : Config} {σ σ₁ σ₂ τ : Store} {outcome : Option Word} {v : Word}

theorem Finishes.head (hr : Reaches μ program c d)
    (hd : Finishes μ program start code d outcome τ) :
    Finishes μ program start code c outcome τ := by
  cases outcome with
  | none =>
    obtain ⟨that, temps, hrest⟩ := hd
    exact ⟨that, temps, hr.trans hrest⟩
  | some v =>
    obtain ⟨pc, that, temps, hle, hlt, hreturn, hrest⟩ := hd
    exact ⟨pc, that, temps, hle, hlt, hreturn, hr.trans hrest⟩

/-- A part of code ends where the machine goes on to the end of the code, and a `return` in
the part is one in the code. -/
theorem Finishes.leave (hc : Finishes μ program start' part c outcome τ)
    (hgo : ∀ s, Reaches μ program ⟨behind start' part, s⟩ ⟨behind start code, s⟩)
    (hstart : start ≤ start') (hend : behind start' part ≤ behind start code) :
    Finishes μ program start code c outcome τ := by
  cases outcome with
  | none =>
    obtain ⟨that, temps, hr⟩ := hc
    exact ⟨that, temps, hr.trans (hgo _)⟩
  | some v =>
    obtain ⟨pc, that, temps, hle, hlt, hreturn, hr⟩ := hc
    exact ⟨pc, that, temps, by omega, by omega, hreturn, hr⟩

/-- A `return` in a part of code is one in the code. -/
theorem Finishes.inside (front : List Instruction) {back : List Instruction}
    (hc : Finishes μ program (behind start front) part c (some v) τ) :
    Finishes μ program start (front ++ part ++ back) c (some v) τ := by
  obtain ⟨pc, that, temps, hle, hlt, hreturn, hr⟩ := hc
  refine ⟨pc, that, temps, Nat.le_trans (le_behind ..) hle, ?_, hreturn, hr⟩
  rw [behind_append, behind_append]
  exact Nat.lt_of_lt_of_le hlt (le_behind ..)

/-- The code ends where its last part does. -/
theorem Finishes.last {front : List Instruction}
    (hc : Finishes μ program (behind start front) part c outcome τ) :
    Finishes μ program start (front ++ part) c outcome τ := by
  refine hc.leave (fun s => ?_) (le_behind ..) ?_
  · rw [behind_append]
    exact .refl
  · exact Nat.le_of_eq (behind_append ..).symm

/-- What is done from the end of a part is done from its start. -/
theorem Finishes.andThen (hc : Finishes μ program start' part c none σ)
    (hrest : ∀ that temps, Finishes μ program start code
      ⟨behind start' part, ⟨[], σ, that, temps⟩⟩ outcome τ) :
    Finishes μ program start code c outcome τ := by
  obtain ⟨that, temps, hr⟩ := hc
  exact .head hr (hrest that temps)

/-- Without statements the code is left where it ends. -/
theorem Simulates.skip (hs : Simulates μ h program [] σ outcome τ)
    (hp : Holds program pc code) (that : Word) (temps : Nat → Word) :
    Finishes μ program pc code ⟨behind pc code, ⟨[], σ, that, temps⟩⟩ outcome τ := by
  have hempty := hs [] {} _ rfl (List.forall_mem_nil _) hp.stop that temps
  exact hempty.leave (fun s => .refl) (le_behind pc code) (Nat.le_refl _)

/-- A condition with the jumps of a conditional behind it. -/
def conditionalFront (condition : List Instruction) (t f : String) : List Instruction :=
  condition ++ [Instruction.ifGoto t, .goto f, .label t]

/-- A condition with the label and the jump of a loop around it. -/
def loopFront (condition : List Instruction) (x e : String) : List Instruction :=
  [Instruction.label x] ++ condition ++ [Instruction.operate .not, .ifGoto e]

section jumps

variable {condition body : List Instruction} {b : Bool} {t f x e : String} {that that' : Word}
  {temps temps' : Nat → Word}

/-- Behind the condition of a conditional the machine goes into the body, or past the label
behind the body. -/
theorem reaches_conditional (skipped : List Instruction) (hn : (labelNames program).Nodup)
    (hp : Holds program pc
      (conditionalFront condition t f ++ body ++ (skipped ++ [Instruction.label f])))
    (hx : exec μ condition ⟨[], σ, that, temps⟩ =
      some ⟨[Arithmetic.truth b], σ₁, that', temps'⟩) :
    Reaches μ program ⟨pc, ⟨[], σ, that, temps⟩⟩
      ⟨behind pc (bif b then conditionalFront condition t f
        else conditionalFront condition t f ++ body ++ (skipped ++ [Instruction.label f])),
        ⟨[], σ₁, that', temps'⟩⟩ := by
  unfold conditionalFront at *
  have hjump := hp.left.left.right
  have htarget := hp.right.right
  refine (reaches_exec hp.left.left.left hx).trans ?_
  cases b with
  | true =>
    rw [cond_true, behind_append]
    refine .head (step_ifGoto hn hjump hjump.tail.tail rfl (by decide)) ?_
    exact .single (step_label hjump.tail.tail)
  | false =>
    rw [cond_false, behind_append, behind_append]
    refine .head (step_ifGoto_zero hjump rfl) ?_
    refine .head (step_goto hn hjump.tail htarget) ?_
    exact .single (step_label htarget)

/-- Behind the condition of a loop the machine goes into the body, or past the end. -/
theorem reaches_loop (hnot : ∀ b, μ.not (Arithmetic.truth b) = Arithmetic.truth (!b))
    (hn : (labelNames program).Nodup)
    (hp : Holds program pc (loopFront condition x e ++ body ++ [Instruction.goto x, .label e]))
    (hx : exec μ condition ⟨[], σ, that, temps⟩ =
      some ⟨[Arithmetic.truth b], σ₁, that', temps'⟩) :
    Reaches μ program ⟨pc, ⟨[], σ, that, temps⟩⟩
      ⟨behind pc (bif b then loopFront condition x e
        else loopFront condition x e ++ body ++ [Instruction.goto x, .label e]),
        ⟨[], σ₁, that', temps'⟩⟩ := by
  unfold loopFront at *
  have hlabel := hp.left.left.left.left
  have hcondition := hp.left.left.left.right
  have hjump := hp.left.left.right
  have hend := hp.right
  have hnegate : effect μ ⟨[Arithmetic.truth b], σ₁, that', temps'⟩ (.operate .not) =
      some ⟨[Arithmetic.truth !b], σ₁, that', temps'⟩ := by
    rw [← hnot]
    rfl
  rw [behind_append] at hjump
  refine .head (step_label hlabel) ?_
  refine (reaches_exec hcondition hx).trans ?_
  refine .head (step_effect hjump.head hnegate) ?_
  cases b with
  | true =>
    rw [cond_true, behind_append, behind_append]
    exact .single (step_ifGoto_zero hjump.tail rfl)
  | false =>
    rw [cond_false, behind_append]
    refine .head (step_ifGoto hn hjump.tail hend.tail rfl (by decide)) ?_
    exact .single (step_label hend.tail)

end jumps

section parts

variable {front body alternative : List Instruction} {e f : String}

/-- A part with a label behind it. -/
theorem finishes_label (hp : Holds program pc (front ++ body ++ [Instruction.label f]))
    (hc : Finishes μ program (behind pc front) body c outcome τ) :
    Finishes μ program pc (front ++ body ++ [Instruction.label f]) c outcome τ := by
  have hend := hp.right
  rw [behind_append] at hend
  refine hc.leave (fun s => ?_) (le_behind ..) ?_
  · rw [behind_append, behind_append]
    exact .single (step_label hend)
  · rw [behind_append, behind_append]
    exact le_behind ..

/-- A part that jumps over the one behind it. -/
theorem finishes_goto (hn : (labelNames program).Nodup)
    (hp : Holds program pc
      (front ++ body ++ [Instruction.goto e, .label f] ++ alternative ++ [Instruction.label e]))
    (hc : Finishes μ program (behind pc front) body c outcome τ) :
    Finishes μ program pc
      (front ++ body ++ [Instruction.goto e, .label f] ++ alternative ++ [Instruction.label e])
      c outcome τ := by
  have hgoto := hp.left.left.right
  rw [behind_append] at hgoto
  refine hc.leave (fun s => ?_) (le_behind ..) ?_
  · rw [behind_append]
    exact .head (step_goto hn hgoto hp.right) (.single (step_label hp.right))
  · simp only [behind_append]
    exact Nat.le_trans (le_behind ..) (Nat.le_trans (le_behind ..) (le_behind ..))

end parts

/-- The calls of a conditional are those of its condition and its branches. -/
theorem fits_branches {s : Stmt} {condition : Expr} {branch : Bool → List Stmt}
    (hs : s.branches? = some (condition, branch)) (hfits : ∀ call ∈ s.calls, call.Fits h) :
    (∀ call ∈ condition.calls, call.Fits h) ∧
      ∀ b, ∀ call ∈ statementsCalls (branch b), call.Fits h := by
  cases s with
  | ifThen _ body =>
    cases hs
    obtain ⟨hcondition, hbody⟩ := List.forall_mem_append.1 hfits
    exact ⟨hcondition, Bool.forall_bool.2 ⟨nofun, hbody⟩⟩
  | ifElse _ body alternative =>
    cases hs
    obtain ⟨hfirst, halternative⟩ := List.forall_mem_append.1 hfits
    obtain ⟨hcondition, hbody⟩ := List.forall_mem_append.1 hfirst
    exact ⟨hcondition, Bool.forall_bool.2 ⟨halternative, hbody⟩⟩
  | assign | assignElement | «while» | call | «return» => cases hs

/-- A conditional goes on with one of its branches, and from there to its end. -/
theorem finishes_branch {s : Stmt} {x : Statement} {condition : Expr}
    {branch : Bool → List Stmt} {b : Bool} (hn : (labelNames program).Nodup)
    (hs : s.branches? = some (condition, branch))
    (hc : condition.run μ h σ = some (Arithmetic.truth b, σ₁))
    (hbranch : Simulates μ h program (branch b) σ₁ outcome τ) (hx : s.tree? h = some x)
    (hfits : ∀ call ∈ s.calls, call.Fits h) {labels : Labels}
    (hp : Holds program pc (x.code h.className labels).1) (that : Word) (temps : Nat → Word) :
    Finishes μ program pc (x.code h.className labels).1 ⟨pc, ⟨[], σ, that, temps⟩⟩
      outcome τ := by
  obtain ⟨hcondition, hinside⟩ := fits_branches hs hfits
  cases s with
  | ifThen _ body =>
    cases hs
    obtain ⟨e, he, hx⟩ := Option.bind_eq_some_iff.1 hx
    obtain ⟨xs, hxs, hx⟩ := Option.bind_eq_some_iff.1 hx
    cases hx
    obtain ⟨that', hx⟩ := exec_run hc he hcondition [] that temps
    refine .head (reaches_conditional [] hn hp hx) ?_
    cases b with
    | true => exact finishes_label hp (hbranch xs _ _ hxs (hinside true) hp.left.right that' temps)
    | false => exact hbranch.skip hp that' temps
  | ifElse _ body alternative =>
    cases hs
    obtain ⟨e, he, hx⟩ := Option.bind_eq_some_iff.1 hx
    obtain ⟨xs, hxs, hx⟩ := Option.bind_eq_some_iff.1 hx
    obtain ⟨ys, hys, hx⟩ := Option.bind_eq_some_iff.1 hx
    cases hx
    obtain ⟨that', hx⟩ := exec_run hc he hcondition [] that temps
    refine .head (reaches_conditional [.goto _] hn hp.left.left hx) ?_
    cases b with
    | true =>
      exact finishes_goto hn hp
        (hbranch xs _ _ hxs (hinside true) hp.left.left.left.right that' temps)
    | false =>
      exact finishes_label hp (hbranch ys _ _ hys (hinside false) hp.left.right that' temps)
  | assign | assignElement | «while» | call | «return» => cases hs

/-- A loop goes into its body, or past its end. -/
theorem reaches_while {condition : Expr} {body : List Stmt} {x : Statement} {b : Bool}
    (hnot : ∀ b, μ.not (Arithmetic.truth b) = Arithmetic.truth (!b))
    (hn : (labelNames program).Nodup)
    (hc : condition.run μ h σ = some (Arithmetic.truth b, σ₁))
    (hx : (Stmt.while condition body).tree? h = some x)
    (hfits : ∀ call ∈ condition.calls, call.Fits h) {labels : Labels}
    (hp : Holds program pc (x.code h.className labels).1) (that : Word) (temps : Nat → Word) :
    ∃ e xs that', x = .while e xs ∧ statementsTree? h body = some xs ∧
      Reaches μ program ⟨pc, ⟨[], σ, that, temps⟩⟩
        ⟨behind pc (bif b then
            loopFront (e.code h.className) (Mark.whileExp.label labels.loops)
              (Mark.whileEnd.label labels.loops)
          else (x.code h.className labels).1), ⟨[], σ₁, that', temps⟩⟩ := by
  obtain ⟨e, he, hx⟩ := Option.bind_eq_some_iff.1 hx
  obtain ⟨xs, hxs, hx⟩ := Option.bind_eq_some_iff.1 hx
  cases hx
  obtain ⟨that', hcode⟩ := exec_run hc he hfits [] that temps
  exact ⟨e, xs, that', rfl, hxs, reaches_loop hnot hn hp hcode⟩

/-- The value of a `return` is its only operand. -/
theorem finishes_return {code others : List Instruction} {that that' : Word}
    {temps temps' : Nat → Word} (hp : Holds program pc (code ++ [Instruction.return] ++ others))
    (hx : exec μ code ⟨[], σ, that, temps⟩ = some ⟨[v], τ, that', temps'⟩) :
    Finishes μ program pc (code ++ [Instruction.return] ++ others) ⟨pc, ⟨[], σ, that, temps⟩⟩
      (some v) τ := by
  have hreturn := hp.left.right.head
  refine .inside code ⟨behind pc code, that', temps', Nat.le_refl _, ?_, hreturn, ?_⟩
  · exact Nat.lt_succ_self _
  · exact reaches_exec hp.left.left hx

theorem statementsTree?_cons {s : Stmt} {ss : List Stmt} {xs : List Statement}
    (hs : statementsTree? h (s :: ss) = some xs) :
    ∃ x ys, s.tree? h = some x ∧ statementsTree? h ss = some ys ∧ xs = x :: ys := by
  obtain ⟨x, hx, hs⟩ := Option.bind_eq_some_iff.1 hs
  obtain ⟨ys, hys, hs⟩ := Option.bind_eq_some_iff.1 hs
  cases hs
  exact ⟨x, ys, hx, hys, rfl⟩

/-- The code of statements follows their execution. -/
theorem simulates_of_exec {ss : List Stmt}
    (hnot : ∀ b, μ.not (Arithmetic.truth b) = Arithmetic.truth (!b))
    (hn : (labelNames program).Nodup) (hx : Exec μ h ss σ outcome τ) :
    Simulates μ h program ss σ outcome τ := by
  -- on the execution, for any place of the code: a loop that repeats is executed again there
  induction hx with
  | nil =>
    intro xs labels pc ht hfits hp that temps
    cases ht
    exact ⟨that, temps, .refl⟩
  | perform hs _ ih =>
    intro xs labels pc ht hfits hp that temps
    obtain ⟨x, ys, hx, hys, rfl⟩ := statementsTree?_cons ht
    obtain ⟨hfirst, hmore⟩ := List.forall_mem_append.1 hfits
    obtain ⟨that', temps', hcode⟩ := exec_perform hs hx hfirst labels that temps
    have hothers := ih ys _ _ hys hmore hp.right that' temps'
    exact .head (reaches_exec hp.left hcode) hothers.last
  | @returnNothing ss σ =>
    intro xs labels pc ht hfits hp that temps
    obtain ⟨x, ys, hx, hys, rfl⟩ := statementsTree?_cons ht
    cases hx
    have hcode : exec μ [.push .constant 0] ⟨[], σ, that, temps⟩ = some ⟨[0], σ, that, temps⟩ := rfl
    exact finishes_return hp hcode
  | returnValue he =>
    intro xs labels pc ht hfits hp that temps
    obtain ⟨x, ys, hx, hys, rfl⟩ := statementsTree?_cons ht
    obtain ⟨-, hx⟩ := Option.ite_none_left_eq_some.1 hx
    obtain ⟨e, hv, hx⟩ := Option.bind_eq_some_iff.1 hx
    cases hx
    obtain ⟨hvalue, -⟩ := List.forall_mem_append.1 hfits
    obtain ⟨that', hcode⟩ := exec_run he hv hvalue [] that temps
    exact finishes_return hp hcode
  | branchEnds hs hc _ _ hbranch hss =>
    intro xs labels pc ht hfits hp that temps
    obtain ⟨x, ys, hx, hys, rfl⟩ := statementsTree?_cons ht
    obtain ⟨hfirst, hmore⟩ := List.forall_mem_append.1 hfits
    have hends := finishes_branch hn hs hc hbranch hx hfirst hp.left that temps
    exact hends.andThen fun that' temps' => (hss ys _ _ hys hmore hp.right that' temps').last
  | branchReturns hs hc _ hbranch =>
    intro xs labels pc ht hfits hp that temps
    obtain ⟨x, ys, hx, hys, rfl⟩ := statementsTree?_cons ht
    obtain ⟨hfirst, -⟩ := List.forall_mem_append.1 hfits
    exact (finishes_branch hn hs hc hbranch hx hfirst hp.left that temps).inside []
  | loopEnds hc _ ih =>
    intro xs labels pc ht hfits hp that temps
    obtain ⟨x, ys, hx, hys, rfl⟩ := statementsTree?_cons ht
    obtain ⟨hloop, hmore⟩ := List.forall_mem_append.1 hfits
    obtain ⟨hcondition, -⟩ := List.forall_mem_append.1 hloop
    obtain ⟨e, body, that', rfl, -, hr⟩ := reaches_while hnot hn hc hx hcondition hp.left that temps
    exact .head hr (ih ys _ _ hys hmore hp.right that' temps).last
  | loopRepeats hc _ _ hbody hss =>
    intro xs labels pc ht hfits hp that temps
    obtain ⟨x, ys, hx, hys, rfl⟩ := statementsTree?_cons ht
    obtain ⟨hloop, -⟩ := List.forall_mem_append.1 hfits
    obtain ⟨hcondition, hinside⟩ := List.forall_mem_append.1 hloop
    obtain ⟨e, body, that', rfl, hxs, hr⟩ :=
      reaches_while hnot hn hc hx hcondition hp.left that temps
    have hfirst := hbody body _ _ hxs hinside hp.left.left.right that' temps
    refine .head hr (hfirst.andThen fun that' temps' => ?_)
    -- behind the body the machine jumps back, and the rest of the run starts there
    have hgoto := hp.left.right
    rw [behind_append] at hgoto
    refine .head (.single (step_goto hn hgoto hp.left.left.left.left.left)) ?_
    exact hss _ _ _ ht hfits hp that' temps'
  | loopReturns hc _ hbody =>
    intro xs labels pc ht hfits hp that temps
    obtain ⟨x, ys, hx, hys, rfl⟩ := statementsTree?_cons ht
    obtain ⟨hloop, -⟩ := List.forall_mem_append.1 hfits
    obtain ⟨hcondition, hinside⟩ := List.forall_mem_append.1 hloop
    obtain ⟨e, body, that', rfl, hxs, hr⟩ :=
      reaches_while hnot hn hc hx hcondition hp.left that temps
    have hreturn := hbody body _ _ hxs hinside hp.left.left.right that' temps
    have hfirst : Finishes μ program pc (Statement.code h.className labels (.while e body)).1
        _ _ _ := hreturn.inside _
    exact .head hr (hfirst.inside [])

end runs

/-- **Statements keep their meaning.** Take statements that are read in a subroutine, and any
place of their code in its code, whatever the calls compute, where no call has more than 65535
values. If they are executed from a store to their end or to a `return`, the machine runs from that
store through their code to the same store: to the end of the code with no operands, or to a
`return` in the code with the value as its only operand. -/
theorem finishes_statements (sub : Subroutine) {ss : List Stmt} {ls r : List Lexeme}
    (hl : ls.map Lexeme.token = statementsTokens ss ++ [.symbol .rightBrace])
    {t : Taken (List Statement) (ls ++ r)} (ht : readStatements sub.toHeader (ls ++ r) = .ok t)
    {labels : Labels} {before after : List Instruction}
    (hcode : sub.code = before ++ (statementsCode sub.className labels t.value).1 ++ after)
    (hfits : ∀ call ∈ statementsCalls ss, call.Fits sub.toHeader)
    (call : String → List Word → Memory → Word × Memory) {s : State} (hs : s.stack = [])
    {outcome : Option Word} {τ : Store}
    (hx : Exec (.words call) sub.toHeader ss s.store outcome τ) :
    Finishes (.words call) sub.code before.length
      (statementsCode sub.className labels t.value).1 ⟨before.length, s⟩ outcome τ := by
  have hread : statements? sub.toHeader (ls ++ r) = some (t.value, t.rest) := by
    rw [statements?, ht, taken?_ok]
  have htree : statementsTree? sub.toHeader ss = some t.value := by
    rw [statements?_tokens ss r hl] at hread
    obtain ⟨xs, hxs, heq⟩ := Option.map_eq_some_iff.1 hread
    rw [hxs, (Prod.mk.inj heq).1]
  have hnot : ∀ b, (Meaning.words call).not (Arithmetic.truth b) = Arithmetic.truth (!b) := by
    intro b
    cases b <;> rfl
  have hsim := simulates_of_exec hnot sub.nodup_labelNames hx
  obtain ⟨stack, store, that, temps⟩ := s
  obtain rfl : stack = [] := hs
  exact hsim t.value labels before.length htree hfits ⟨before, after, hcode, rfl⟩ that temps

/-- `while (x) { let x = false; } return x;` runs once through the loop. -/
theorem finishes_statements_loop :
    let h : Header := ⟨"Main", .function, false, "run",
      { subroutineLevel := [⟨"x", "boolean", .local, 0⟩], subroutineCounters := ⟨0, 1⟩ }⟩
    let x : Expr := .mk (.name "x") .nil
    let ss : List Stmt := [.while x [.assign "x" (.mk .false .nil)], .return (some x)]
    let ls : List Lexeme := (statementsTokens ss ++ [Token.symbol .rightBrace]).map (⟨·, 0⟩)
    let r : List Lexeme := [⟨.symbol .rightBrace, 0⟩]
    let s : State := ⟨[], ⟨⟨fun _ => 0, fun _ => 0⟩, ⟨fun _ => -1, fun _ => 0, 0⟩⟩, 0, fun _ => 0⟩
    ∃ t : Taken (List Statement) (ls ++ r), readStatements h (ls ++ r) = .ok t ∧
      Finishes (.words fun _ _ m => (0, m)) (Subroutine.mk h t.value).code 1
        (statementsCode "Main" {} t.value).1 ⟨1, s⟩ (some 0)
        { s.store with locals := Function.update s.store.locals 0 0 } := by
  intro h x ss ls r s
  have hl : ls.map Lexeme.token = statementsTokens ss ++ [.symbol .rightBrace] := rfl
  let v : Variable := ⟨"x", "boolean", .local, 0⟩
  let body : List Statement :=
    [.while (.variable v) [.assign v .false], .return (some (.variable v))]
  have hread : statements? h (ls ++ r) = some (body, r) := (statements?_tokens ss r hl).trans rfl
  obtain ⟨hr, ht⟩ := eq_ok_of_taken? hread
  have hcode : (Subroutine.mk h body).code =
      [.function "Main.run" 1] ++ (statementsCode "Main" {} body).1 ++ [] := rfl
  refine ⟨_, ht, finishes_statements (Subroutine.mk h body) hl ht hcode nofun _ rfl ?_⟩
  refine .loopRepeats rfl (.perform rfl .nil) ?_
  exact .loopEnds rfl (.returnValue rfl)

/-- **A call of 65536 arguments is not returned alone**: its execution ends with a value, and the
code stops at its `return` with the arguments below that value. -/
theorem finishes_statements_miscounted :
    let h : Header := ⟨"Main", .function, false, "f",
      ⟨[], [⟨varName 0, "int", .local, 0⟩], {}, ⟨0, 1⟩⟩⟩
    let ss : List Stmt := [.return (some (wideExpr 65536))]
    let ls : List Lexeme := (statementsTokens ss ++ [Token.symbol .rightBrace]).map (⟨·, 0⟩)
    let r : List Lexeme := [⟨.symbol .rightBrace, 0⟩]
    ls.map Lexeme.token = statementsTokens ss ++ [.symbol .rightBrace] ∧
      ∃ t : Taken (List Statement) (ls ++ r), readStatements h (ls ++ r) = .ok t ∧
        (Subroutine.mk h t.value).code =
          [.function "Main.f" 1] ++ (statementsCode "Main" {} t.value).1 ++ [] ∧
        ∀ (call : String → List Word → Memory → Word × Memory) (s : State), s.stack = [] →
          ∃ v τ, Exec (.words call) h ss s.store (some v) τ ∧
            ¬ Finishes (.words call) (Subroutine.mk h t.value).code 1
              (statementsCode "Main" {} t.value).1 ⟨1, s⟩ (some v) τ := by
  intro h ss ls r
  have hx : h.scope.find? (varName 0) = some ⟨varName 0, "int", .local, 0⟩ := by decide
  have hg : h.scope.find? "Main" = none := by decide
  have hl : ls.map Lexeme.token = statementsTokens ss ++ [.symbol .rightBrace] := by
    rw [List.map_map]
    exact List.map_id _
  obtain ⟨x, hvalue⟩ : ∃ x, (wideExpr 65536).tree? h = some x := ⟨_, tree?_wideExpr hx hg _⟩
  have htree : statementsTree? h ss = some [.return (some x)] := by
    simp only [ss, statementsTree?, Stmt.tree?, hvalue]
    rfl
  have hread := (statements?_tokens ss r hl).trans (congrArg (Option.map _) htree)
  obtain ⟨hr, ht⟩ := eq_ok_of_taken? hread
  have hcode : (Subroutine.mk h [.return (some x)]).code =
      [.function "Main.f" 1] ++ (statementsCode "Main" {} [.return (some x)]).1 ++ [] := rfl
  refine ⟨hl, _, ht, hcode, fun call s hs => ?_⟩
  obtain ⟨e, v, mem, s', he, heval, hexec, hheight⟩ := exec_wideExpr hx hg 65536 (.words call) s
  obtain rfl := Option.some.inj (hvalue.symm.trans he)
  have hrun : (wideExpr 65536).run (.words call) h s.store =
      some (v, { s.store with toMemory := mem }) := by
    simp [Expr.run, heval]
  refine ⟨v, _, .returnValue hrun, ?_⟩
  rintro ⟨pc, that, temps, -, -, hreturn, hfinishes⟩
  -- the run stops behind the code of the call, with the arguments still there
  have hp : Holds (Subroutine.mk h [.return (some x)]).code 1 (x.code "Main" ++ [.return]) :=
    ⟨[.function "Main.f" 1], [], by simp [hcode, statementsCode, Statement.code], rfl⟩
  have hstops := (reaches_exec hp.left hexec).unique hfinishes (step_return hp.right.head)
    (step_return hreturn)
  have hzero : counted 65536 = 0 := by decide
  obtain ⟨-, hstate⟩ := Config.mk.inj hstops
  rw [hstate, hzero, hs] at hheight
  exact absurd hheight (by simp)

end JackToolchain.Jack
