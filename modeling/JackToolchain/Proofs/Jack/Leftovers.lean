import JackToolchain.Proofs.Jack.Calls
import JackToolchain.Proofs.Vm.Height

/-!
# What calls leave on the stack

The values of a call are counted in 16 bits. With more than 65535 of them the counter starts again,
so the instruction takes fewer values than there are, and leaves the others below its result.

* `uncounted`: what a counter of 16 bits leaves out.
* `Expression.leftover`, `statementsLeftover`: how many values the calls of trees leave.
* `climb_expression`: **the height behind an expression counts what its calls leave**.
* `leftover_expression`, `leftover_statements`: **nothing is left exactly if every call fits**.
-/

namespace JackToolchain.Jack

open Vm Grammar

/-! ## Numbers that are not counted -/

/-- How many of some values a counter of 16 bits leaves out. -/
def uncounted (n : Nat) : Nat :=
  n - counted n

theorem counted_add_uncounted (n : Nat) : counted n + uncounted n = n :=
  Nat.add_sub_of_le (counted_self_le n)

theorem uncounted_eq_zero_iff {n : Nat} : uncounted n = 0 ↔ n ≤ maxNumber := by
  rw [uncounted, Nat.sub_eq_zero_iff_le, ← counted_eq_iff]
  exact ⟨Nat.le_antisymm (counted_self_le n), Nat.le_of_eq ∘ Eq.symm⟩

/-! ## Trees -/

mutual

/-- How many values the calls in an expression leave on the stack. -/
def Expression.leftover : Expression → Nat
  | .integer _ | .string _ | .true | .false | .null | .this | .variable _ => 0
  | .element _ index => index.leftover
  | .negate operand => operand.leftover
  | .invert operand => operand.leftover
  | .binary left _ right => left.leftover + right.leftover
  | .call target _ arguments =>
    argumentsLeftover arguments + uncounted (arguments.length + target.receiver.length)

/-- How many values the calls in arguments leave on the stack. -/
def argumentsLeftover : List Expression → Nat
  | [] => 0
  | e :: es => e.leftover + argumentsLeftover es

end

mutual

/-- How many values the calls in a statement leave on the stack. -/
def Statement.leftover : Statement → Nat
  | .assign _ value => value.leftover
  | .assignElement _ index value => index.leftover + value.leftover
  | .ifThen condition body => condition.leftover + statementsLeftover body
  | .ifElse condition body alternative =>
    condition.leftover + statementsLeftover body + statementsLeftover alternative
  | .while condition body => condition.leftover + statementsLeftover body
  | .call target name arguments => (Expression.call target name arguments).leftover
  | .return none => 0
  | .return (some value) => value.leftover

/-- How many values the calls in statements leave on the stack. -/
def statementsLeftover : List Statement → Nat
  | [] => 0
  | s :: ss => s.leftover + statementsLeftover ss

end

/-! ## Heights -/

section heights

variable (n : Nat)

theorem climb_receiver (target : Target) :
    climb target.receiver n = some (n + target.receiver.length) := by
  cases target <;> rfl

/-- A call takes what is counted of the values above the height at which they begin. -/
theorem climb_call (name : String) (values : Nat) :
    climb [.call name (counted values)] (n + values) = some (n + uncounted values + 1) := by
  have hsum := counted_add_uncounted values
  have hfits : counted values ≤ n + values := by omega
  have hafter : n + values - counted values + 1 = n + uncounted values + 1 := by omega
  simp [climb, Instruction.fits, Instruction.takes, Instruction.after, Instruction.puts, hfits,
    hafter]

theorem climb_operator (operator : BinaryOperator) :
    climb [operator.instruction] (n + 2) = some (n + 1) := by
  cases operator <;>
    simp [climb, BinaryOperator.instruction, Instruction.fits, Instruction.takes, Operator.arity,
      Instruction.after, Instruction.puts]

theorem climb_characters (cs : List Char) :
    climb (cs.flatMap fun c => [.push .constant c.toNat, .call "String.appendChar" 2]) (n + 1) =
      some (n + 1) := by
  induction cs with
  | nil => rfl
  | cons c cs ih =>
    have hc : climb [.push .constant c.toNat, .call "String.appendChar" 2] (n + 1) =
        some (n + 1) := climb_call n "String.appendChar" 2
    rw [List.flatMap_cons, climb_append_of_eq hc, ih]

theorem climb_string (value : String) : climb (stringCode value) n = some (n + 1) := by
  have hnew : climb [.push .constant value.length, .call "String.new" 1] n = some (n + 1) :=
    climb_call n "String.new" 1
  rw [stringCode, climb_append_of_eq hnew, climb_characters]

mutual

/-- **The height behind an expression** counts its value and what its calls leave. -/
theorem climb_expression (className : String) (e : Expression) (n : Nat) :
    climb (e.code className) n = some (n + e.leftover + 1) := by
  cases e with
  | string value => exact climb_string n value
  | element array index =>
    rw [Expression.code, climb_append_of_eq (climb_expression className index n)]
    rfl
  | negate operand =>
    rw [Expression.code, climb_append_of_eq (climb_expression className operand n)]
    rfl
  | invert operand =>
    rw [Expression.code, climb_append_of_eq (climb_expression className operand n)]
    rfl
  | binary left operator right =>
    rw [Expression.code, List.append_assoc, climb_append_of_eq (climb_expression className left n),
      climb_append_of_eq (climb_expression className right _), Expression.leftover]
    have hheight : n + left.leftover + 1 + right.leftover + 1 =
        n + (left.leftover + right.leftover) + 2 := by omega
    rw [hheight, climb_operator]
  | call target name arguments =>
    rw [Expression.code, List.append_assoc, climb_append_of_eq (climb_receiver n target),
      climb_append_of_eq (climb_arguments className arguments _), toNat_argumentCount,
      Expression.leftover]
    have hheight : n + target.receiver.length + argumentsLeftover arguments + arguments.length =
        n + argumentsLeftover arguments + (arguments.length + target.receiver.length) := by omega
    rw [hheight, climb_call, Nat.add_assoc n]
  | _ => rfl

/-- The height behind arguments counts an operand for each, and what their calls leave. -/
theorem climb_arguments (className : String) (es : List Expression) (n : Nat) :
    climb (argumentsCode className es) n = some (n + argumentsLeftover es + es.length) := by
  cases es with
  | nil => rfl
  | cons e es =>
    rw [argumentsCode, climb_append_of_eq (climb_expression className e n),
      climb_arguments className es _, argumentsLeftover, List.length_cons]
    congr 1
    omega

end

end heights

/-! ## Calls that fit -/

section fits

variable {h : Header}

/-- A call leaves nothing exactly if it fits and the calls in its arguments do. -/
theorem leftover_call {callee : Callee} {target : Target} {name : String} {args : List Expr}
    {es : List Expression} (hc : callee.resolve h = some (target, name))
    (ha : argumentsTree? h args = some es)
    (hes : argumentsLeftover es = 0 ↔ ∀ call ∈ argumentsCalls args, call.Fits h) :
    (Expression.call target name es).leftover = 0 ↔
      ∀ call ∈ argumentsCalls args ++ [⟨callee, args⟩], call.Fits h := by
  rw [Expression.leftover, Nat.add_eq_zero_iff, hes, uncounted_eq_zero_iff,
    count_of_resolve hc ha, List.forall_mem_append, List.forall_mem_singleton, Call.Fits]

mutual

theorem leftover_term (t : Term) {e : Expression} (ht : t.tree? h = some e) :
    e.leftover = 0 ↔ ∀ call ∈ t.calls, call.Fits h := by
  cases t with
  | integer _ | «true» | «false» | null =>
    cases ht
    exact iff_of_true rfl nofun
  | string _ | this =>
    obtain ⟨-, heq⟩ := Option.ite_none_right_eq_some.1 ht
    cases heq
    exact iff_of_true rfl nofun
  | name name =>
    obtain ⟨v, -, heq⟩ := Option.bind_eq_some_iff.1 ht
    cases heq
    exact iff_of_true rfl nofun
  | element array index =>
    obtain ⟨v, -, hrest⟩ := Option.bind_eq_some_iff.1 ht
    obtain ⟨x, hx, heq⟩ := Option.bind_eq_some_iff.1 hrest
    cases heq
    rw [Expression.leftover, leftover_expression index hx, Term.calls]
  | call callee arguments =>
    obtain ⟨⟨target, name⟩, hc, hrest⟩ := Option.bind_eq_some_iff.1 ht
    obtain ⟨es, ha, heq⟩ := Option.bind_eq_some_iff.1 hrest
    cases heq
    exact leftover_call hc ha (leftover_arguments arguments ha)
  | enclosed inner => exact leftover_expression inner ht
  | negate operand =>
    obtain ⟨x, hx, heq⟩ := Option.bind_eq_some_iff.1 ht
    cases heq
    rw [Expression.leftover, leftover_term operand hx, Term.calls]
  | invert operand =>
    obtain ⟨x, hx, heq⟩ := Option.bind_eq_some_iff.1 ht
    cases heq
    rw [Expression.leftover, leftover_term operand hx, Term.calls]

/-- **An expression leaves nothing but its value exactly if every call in it fits.** -/
theorem leftover_expression (t : Expr) {e : Expression} (ht : t.tree? h = some e) :
    e.leftover = 0 ↔ ∀ call ∈ t.calls, call.Fits h := by
  obtain ⟨first, others⟩ := t
  obtain ⟨left, hleft, hrest⟩ := Option.bind_eq_some_iff.1 ht
  rw [leftover_chain others hrest, leftover_term first hleft, Expr.calls, List.forall_mem_append]

theorem leftover_chain (t : Chain) {left e : Expression} (ht : t.tree? h left = some e) :
    e.leftover = 0 ↔ left.leftover = 0 ∧ ∀ call ∈ t.calls, call.Fits h := by
  cases t with
  | nil =>
    cases ht
    exact (and_iff_left nofun).symm
  | cons operator operand others =>
    obtain ⟨right, hright, hrest⟩ := Option.bind_eq_some_iff.1 ht
    rw [leftover_chain others hrest, Expression.leftover, Nat.add_eq_zero_iff,
      leftover_term operand hright, Chain.calls, List.forall_mem_append, and_assoc]

theorem leftover_arguments (ts : List Expr) {es : List Expression}
    (ht : argumentsTree? h ts = some es) :
    argumentsLeftover es = 0 ↔ ∀ call ∈ argumentsCalls ts, call.Fits h := by
  cases ts with
  | nil =>
    cases ht
    exact iff_of_true rfl nofun
  | cons t ts =>
    obtain ⟨first, hfirst, hrest⟩ := Option.bind_eq_some_iff.1 ht
    obtain ⟨others, hothers, heq⟩ := Option.bind_eq_some_iff.1 hrest
    cases heq
    rw [argumentsLeftover, Nat.add_eq_zero_iff, leftover_expression t hfirst,
      leftover_arguments ts hothers, argumentsCalls, List.forall_mem_append]

end

mutual

theorem leftover_statement (t : Stmt) {s : Statement} (ht : t.tree? h = some s) :
    s.leftover = 0 ↔ ∀ call ∈ t.calls, call.Fits h := by
  cases t with
  | assign name value =>
    obtain ⟨v, -, hrest⟩ := Option.bind_eq_some_iff.1 ht
    obtain ⟨x, hx, heq⟩ := Option.bind_eq_some_iff.1 hrest
    cases heq
    exact leftover_expression value hx
  | assignElement array index value =>
    obtain ⟨v, -, hrest⟩ := Option.bind_eq_some_iff.1 ht
    obtain ⟨x, hx, hrest'⟩ := Option.bind_eq_some_iff.1 hrest
    obtain ⟨y, hy, heq⟩ := Option.bind_eq_some_iff.1 hrest'
    cases heq
    rw [Statement.leftover, Nat.add_eq_zero_iff, leftover_expression index hx,
      leftover_expression value hy, Stmt.calls, List.forall_mem_append]
  | ifThen condition body | «while» condition body =>
    obtain ⟨x, hx, hrest⟩ := Option.bind_eq_some_iff.1 ht
    obtain ⟨b, hb, heq⟩ := Option.bind_eq_some_iff.1 hrest
    cases heq
    rw [Statement.leftover, Nat.add_eq_zero_iff, leftover_expression condition hx,
      leftover_statements body hb, Stmt.calls, List.forall_mem_append]
  | ifElse condition body alternative =>
    obtain ⟨x, hx, hrest⟩ := Option.bind_eq_some_iff.1 ht
    obtain ⟨b, hb, hrest'⟩ := Option.bind_eq_some_iff.1 hrest
    obtain ⟨a, ha, heq⟩ := Option.bind_eq_some_iff.1 hrest'
    cases heq
    rw [Statement.leftover, Nat.add_eq_zero_iff, Nat.add_eq_zero_iff,
      leftover_expression condition hx, leftover_statements body hb,
      leftover_statements alternative ha, Stmt.calls, List.forall_mem_append,
      List.forall_mem_append]
  | call callee arguments =>
    obtain ⟨⟨target, name⟩, hc, hrest⟩ := Option.bind_eq_some_iff.1 ht
    obtain ⟨es, ha, heq⟩ := Option.bind_eq_some_iff.1 hrest
    cases heq
    exact leftover_call hc ha (leftover_arguments arguments ha)
  | «return» value =>
    cases value with
    | none =>
      cases ht
      exact iff_of_true rfl nofun
    | some t =>
      obtain ⟨-, ht⟩ := Option.ite_none_left_eq_some.1 ht
      obtain ⟨x, hx, heq⟩ := Option.bind_eq_some_iff.1 ht
      cases heq
      exact leftover_expression t hx

/-- **Statements leave nothing exactly if every call in them fits.** -/
theorem leftover_statements (ts : List Stmt) {ss : List Statement}
    (ht : statementsTree? h ts = some ss) :
    statementsLeftover ss = 0 ↔ ∀ call ∈ statementsCalls ts, call.Fits h := by
  cases ts with
  | nil =>
    cases ht
    exact iff_of_true rfl nofun
  | cons t ts =>
    obtain ⟨first, hfirst, hrest⟩ := Option.bind_eq_some_iff.1 ht
    obtain ⟨others, hothers, heq⟩ := Option.bind_eq_some_iff.1 hrest
    cases heq
    rw [statementsLeftover, Nat.add_eq_zero_iff, leftover_statement t hfirst,
      leftover_statements ts hothers, statementsCalls, List.forall_mem_append]

end

end fits

end JackToolchain.Jack
