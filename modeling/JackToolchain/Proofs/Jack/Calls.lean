import JackToolchain.Jack.Code
import JackToolchain.Proofs.Jack.Grammar

/-!
# The calls of a source text

A call stands wherever a term or a statement does, also among the arguments of another call. Its
code is a part of the code around it: the receiver, the arguments in their order, and the
instruction that takes them.

* `Call`, `statementsCalls`: a call, and the calls of statements.
* `Callee.receiver`, `Callee.targetName`: what a call pushes before its arguments, and where it
  goes.
* `Call.count`, `Call.number`, `Call.Fits`: how many values a call has, how many its instruction
  takes, and whether 16 bits can count them.
* `Call.HasCode`: the code of a call.
* `Emitted`: calls whose codes are parts of other code, one behind the other.
* `Emitted.count_iff`: calls take their values exactly if they can count them.
* `emitted_statements`: **the calls of statements are emitted in their code**.
-/

namespace JackToolchain.Jack

open Vm

namespace Grammar

/-- A call of a source text. -/
structure Call where
  callee : Callee
  arguments : List Expr

mutual

/-- The calls in a term. Those among the arguments of a call stand before it. -/
def Term.calls : Term → List Call
  | .integer _ | .string _ | .true | .false | .null | .this | .name _ => []
  | .element _ index => index.calls
  | .call callee arguments => argumentsCalls arguments ++ [⟨callee, arguments⟩]
  | .enclosed e => e.calls
  | .negate operand => operand.calls
  | .invert operand => operand.calls

/-- The calls in an expression. -/
def Expr.calls : Expr → List Call
  | .mk first others => first.calls ++ others.calls

/-- The calls in the terms behind operators. -/
def Chain.calls : Chain → List Call
  | .nil => []
  | .cons _ operand others => operand.calls ++ others.calls

/-- The calls in arguments. -/
def argumentsCalls : List Expr → List Call
  | [] => []
  | e :: es => e.calls ++ argumentsCalls es

end

mutual

/-- The calls in a statement. -/
def Stmt.calls : Stmt → List Call
  | .assign _ value => value.calls
  | .assignElement _ index value => index.calls ++ value.calls
  | .ifThen condition body => condition.calls ++ statementsCalls body
  | .ifElse condition body alternative =>
    condition.calls ++ statementsCalls body ++ statementsCalls alternative
  | .while condition body => condition.calls ++ statementsCalls body
  | .call callee arguments => argumentsCalls arguments ++ [⟨callee, arguments⟩]
  | .return none => []
  | .return (some value) => value.calls

/-- The calls in statements. -/
def statementsCalls : List Stmt → List Call
  | [] => []
  | s :: ss => s.calls ++ statementsCalls ss

end

/-! ## Code -/

/-- The instructions that put the receiver of a call on the stack: the variable that is declared
under the name before the dot, or the current object where no name stands there. -/
def Callee.receiver (h : Header) : Callee → List Instruction
  | .bare _ | .this _ => [.push .pointer 0]
  | .member head _ =>
    match h.scope.find? head with
    | some v => [.push v.kind.segment v.index.toNat]
    | none => []

/-- The name that a call goes to. -/
def Callee.targetName (h : Header) : Callee → String
  | .bare name | .this name => qualifiedName h.className name
  | .member head name =>
    match h.scope.find? head with
    | some v => qualifiedName v.type name
    | none => qualifiedName head name

/-- The code of an expression in a subroutine. -/
def Expr.code? (h : Header) (e : Expr) : Option (List Instruction) :=
  (e.tree? h).map (Expression.code h.className)

namespace Call

/-- How many values a call has: its arguments and its receiver. -/
def count (h : Header) (call : Call) : Nat :=
  call.arguments.length + (call.callee.receiver h).length

/-- How many values the instruction of a call takes. -/
def number (h : Header) (call : Call) : Nat :=
  counted (call.count h)

/-- Whether the values of a call can be counted in 16 bits. -/
def Fits (h : Header) (call : Call) : Prop :=
  call.count h ≤ maxNumber

/-- The code that puts the values of a call on the stack, given the code of its arguments. -/
def operands (h : Header) (codes : List (List Instruction)) (call : Call) : List Instruction :=
  call.callee.receiver h ++ codes.flatten

/-- The code of a call: the receiver, the codes of the arguments in their order, and one
instruction that takes `n` values. -/
def HasCode (h : Header) (n : Nat) (call : Call) (code : List Instruction) : Prop :=
  ∃ codes : List (List Instruction), call.arguments.map (Expr.code? h) = codes.map some ∧
    code = call.operands h codes ++ [.call (call.callee.targetName h) n]

end Call

/-- Calls whose codes are parts of other code, each with its number of values. Each ends behind
those before it, so it has a part of its own. -/
inductive Emitted (h : Header) (number : Call → Nat) : List Call → List Instruction → Prop where
  | nil {code : List Instruction} : Emitted h number [] code
  | snoc {calls : List Call} {call : Call} {front before part behind : List Instruction}
    (hcalls : Emitted h number calls front) (hfront : front <+: before ++ part)
    (hlt : front.length < (before ++ part).length) (hpart : call.HasCode h (number call) part) :
    Emitted h number (calls ++ [call]) (before ++ part ++ behind)

end Grammar

open Grammar

variable {h : Header} {call : Call} {code more : List Instruction}

namespace Grammar.Emitted

variable {number number' : Call → Nat} {calls others : List Call}

theorem left (hc : Emitted h number calls code) : Emitted h number calls (code ++ more) := by
  cases hc with
  | nil => exact .nil
  | snoc hcalls hfront hlt hpart =>
    rw [List.append_assoc _ _ more]
    exact .snoc hcalls hfront hlt hpart

theorem append (hc : Emitted h number calls code) (ho : Emitted h number others more) :
    Emitted h number (calls ++ others) (code ++ more) := by
  induction ho with
  | nil =>
    rw [List.append_nil]
    exact hc.left
  | @snoc others call front before part behind hothers hfront hlt hpart ih =>
    have hcode : code ++ (before ++ part ++ behind) = (code ++ before) ++ part ++ behind := by simp
    rw [← List.append_assoc, hcode]
    refine .snoc ih ?_ ?_ hpart
    · rw [List.append_assoc]
      exact (List.prefix_append_right_inj code).2 hfront
    · simp only [List.length_append] at hlt ⊢
      omega

theorem right (ho : Emitted h number others more) : Emitted h number others (code ++ more) :=
  append .nil ho

/-- Each of the calls has its code in the code around it. -/
theorem exists_part (hc : Emitted h number calls code) (hcall : call ∈ calls) :
    ∃ part, call.HasCode h (number call) part ∧ part <:+: code := by
  induction hc with
  | nil => cases hcall
  | @snoc calls last front before part behind _ hfront _ hpart ih =>
    rcases List.mem_append.1 hcall with hcall | hcall
    · obtain ⟨other, hother, hwithin⟩ := ih hcall
      exact ⟨other, hother, (hwithin.trans hfront.isInfix).trans (List.prefix_append ..).isInfix⟩
    · rw [List.mem_singleton.1 hcall]
      exact ⟨part, hpart, before, behind, rfl⟩

/-- Only the numbers of the calls count. -/
theorem congr (hc : Emitted h number calls code)
    (hnumber : ∀ call ∈ calls, number call = number' call) : Emitted h number' calls code := by
  induction hc with
  | nil => exact .nil
  | snoc _ hfront hlt hpart ih =>
    obtain ⟨hcalls, hcall⟩ := List.forall_mem_append.1 hnumber
    refine .snoc (ih hcalls) hfront hlt ?_
    rwa [← List.forall_mem_singleton.1 hcall]

/-- Calls take all of their values exactly if they can count them, in code whose numbers can be
written. -/
theorem count_iff (hc : Emitted h (Call.number h) calls code)
    (hcode : ∀ i ∈ code, i.IsEncodable) :
    Emitted h (Call.count h) calls code ↔ ∀ call ∈ calls, call.Fits h := by
  constructor
  · intro hcount call hcall
    obtain ⟨part, ⟨codes, -, rfl⟩, hpart⟩ := hcount.exists_part hcall
    exact hcode _ (hpart.subset (List.mem_append_right _ (List.mem_singleton_self _))) _ rfl
  · intro hfits
    exact hc.congr fun call hcall => counted_eq_iff.2 (hfits call hcall)

end Grammar.Emitted

theorem argumentCount_eq (arguments : List Expression) :
    argumentCount arguments = UInt16.ofNat arguments.length := by
  have hfold (n : Nat) : arguments.foldl (fun count _ => count + 1) (UInt16.ofNat n) =
      UInt16.ofNat (n + arguments.length) := by
    induction arguments generalizing n with
    | nil => rfl
    | cons _ arguments ih =>
      have hnext : UInt16.ofNat n + 1 = UInt16.ofNat (n + 1) := (UInt16.ofNat_add n 1).symm
      rw [List.foldl_cons, hnext, ih, List.length_cons, Nat.add_assoc, Nat.add_comm 1]
  rw [argumentCount, ← Nat.zero_add arguments.length, ← hfold 0]
  rfl

/-- The number in a call instruction. -/
theorem toNat_argumentCount (target : Target) (arguments : List Expression) :
    (argumentCount arguments + target.receiverCount).toNat =
      counted (arguments.length + target.receiver.length) := by
  have hreceiver : target.receiverCount = UInt16.ofNat target.receiver.length := by
    cases target <;> rfl
  rw [argumentCount_eq, hreceiver, ← UInt16.ofNat_add, counted]

theorem length_argumentsTree? {args : List Expr} {es : List Expression}
    (ha : argumentsTree? h args = some es) : es.length = args.length := by
  induction args generalizing es with
  | nil =>
    cases ha
    rfl
  | cons arg args ih =>
    obtain ⟨first, -, hrest⟩ := Option.bind_eq_some_iff.1 ha
    obtain ⟨others, hothers, heq⟩ := Option.bind_eq_some_iff.1 hrest
    cases heq
    rw [List.length_cons, List.length_cons, ih hothers]

/-- What a call is made on is put on the stack and names its class. -/
theorem receiver_of_resolve {callee : Callee} {target : Target} {name : String}
    (hc : callee.resolve h = some (target, name)) : target.receiver = callee.receiver h ∧
      qualifiedName (target.typeName h.className) name = callee.targetName h := by
  cases callee with
  | bare other =>
    cases hc
    exact ⟨rfl, rfl⟩
  | member head other =>
    simp only [Callee.receiver, Callee.targetName]
    rw [Callee.resolve] at hc
    cases hv : h.scope.find? head with
    | some v =>
      rw [hv] at hc
      cases hc
      exact ⟨rfl, rfl⟩
    | none =>
      rw [hv] at hc
      cases hc
      exact ⟨rfl, rfl⟩
  | this other =>
    obtain ⟨-, heq⟩ := Option.ite_none_right_eq_some.1 hc
    cases heq
    exact ⟨rfl, rfl⟩

/-- The code of arguments is that of each of them, in their order. -/
theorem argumentsCode_eq (className : String) (xs : List Expression) :
    argumentsCode className xs = (xs.map (Expression.code className)).flatten := by
  induction xs with
  | nil => rfl
  | cons x xs ih => rw [argumentsCode, ih, List.map_cons, List.flatten_cons]

/-- Arguments have codes exactly if they mean something, and then they have its codes. -/
theorem map_code?_eq_iff {es : List Expr} {codes : List (List Instruction)} :
    es.map (Expr.code? h) = codes.map some ↔ ∃ xs, argumentsTree? h es = some xs ∧
      xs.map (Expression.code h.className) = codes := by
  induction es generalizing codes with
  | nil =>
    constructor
    · intro hcodes
      exact ⟨[], rfl, (List.map_eq_nil_iff.1 hcodes.symm).symm⟩
    · rintro ⟨_, hes, rfl⟩
      cases hes
      rfl
  | cons e es ih =>
    cases codes with
    | nil => simp [argumentsTree?, Option.bind_eq_some_iff]
    | cons code codes =>
      rw [List.map_cons, List.map_cons, List.cons_eq_cons, ih, Expr.code?, Option.map_eq_some_iff]
      constructor
      · rintro ⟨⟨x, hx, rfl⟩, xs, hxs, rfl⟩
        exact ⟨x :: xs, by simp [argumentsTree?, hx, hxs], rfl⟩
      · rintro ⟨_, hes, hcodes⟩
        obtain ⟨x, hx, hrest⟩ := Option.bind_eq_some_iff.1 hes
        obtain ⟨xs, hxs, heq⟩ := Option.bind_eq_some_iff.1 hrest
        cases heq
        obtain ⟨rfl, rfl⟩ := List.cons_eq_cons.1 hcodes
        exact ⟨⟨x, hx, rfl⟩, xs, hxs, rfl⟩

/-- A call on a tree has as many values as the call in the source. -/
theorem count_of_resolve {callee : Callee} {target : Target} {name : String} {args : List Expr}
    {es : List Expression} (hc : callee.resolve h = some (target, name))
    (ha : argumentsTree? h args = some es) :
    es.length + target.receiver.length = Call.count h ⟨callee, args⟩ := by
  rw [length_argumentsTree? ha, (receiver_of_resolve hc).1]
  rfl

/-- The code of a call on a tree is that of the call in the source. -/
theorem hasCode_callCode {callee : Callee} {target : Target} {name : String} {args : List Expr}
    {es : List Expression} (hc : callee.resolve h = some (target, name))
    (ha : argumentsTree? h args = some es) :
    Call.HasCode h (Call.number h ⟨callee, args⟩) ⟨callee, args⟩
      (callCode h.className target name es) := by
  obtain ⟨hreceiver, htarget⟩ := receiver_of_resolve hc
  refine ⟨_, map_code?_eq_iff.2 ⟨es, ha, rfl⟩, ?_⟩
  rw [callCode, Expression.code, argumentsCode_eq, toNat_argumentCount, count_of_resolve hc ha,
    hreceiver, htarget]
  rfl

/-! ## Expressions -/

/-- A call ends behind the calls in its arguments. -/
theorem emitted_invocation {callee : Callee} {target : Target} {name : String} {args : List Expr}
    {es : List Expression} (hc : callee.resolve h = some (target, name))
    (ha : argumentsTree? h args = some es)
    (hcalls : Emitted h (Call.number h) (argumentsCalls args) (argumentsCode h.className es)) :
    Emitted h (Call.number h) (argumentsCalls args ++ [⟨callee, args⟩])
      (callCode h.className target name es) := by
  have hfront : target.receiver ++ argumentsCode h.className es <+:
      [] ++ callCode h.className target name es := List.prefix_append ..
  have hoperands : Emitted h (Call.number h) (argumentsCalls args)
      (target.receiver ++ argumentsCode h.className es) := hcalls.right
  have hlast : Emitted h (Call.number h) (argumentsCalls args ++ [⟨callee, args⟩])
      ([] ++ callCode h.className target name es ++ []) :=
    .snoc hoperands hfront (by simp [callCode, Expression.code]) (hasCode_callCode hc ha)
  simpa using hlast

mutual

/-- The calls of a term are emitted in its code. -/
theorem emitted_term (t : Term) {e : Expression} (ht : t.tree? h = some e) :
    Emitted h (Call.number h) t.calls (e.code h.className) := by
  cases t with
  | integer _ | string _ | «true» | «false» | null | this | name _ => exact .nil
  | element array index =>
    obtain ⟨v, -, hrest⟩ := Option.bind_eq_some_iff.1 ht
    obtain ⟨x, hx, heq⟩ := Option.bind_eq_some_iff.1 hrest
    cases heq
    exact (emitted_expression index hx).left
  | call callee arguments =>
    obtain ⟨⟨target, name⟩, hc, hrest⟩ := Option.bind_eq_some_iff.1 ht
    obtain ⟨es, ha, heq⟩ := Option.bind_eq_some_iff.1 hrest
    cases heq
    exact emitted_invocation hc ha (emitted_arguments arguments ha)
  | enclosed inner => exact emitted_expression inner ht
  | negate operand =>
    obtain ⟨x, hx, heq⟩ := Option.bind_eq_some_iff.1 ht
    cases heq
    exact (emitted_term operand hx).left
  | invert operand =>
    obtain ⟨x, hx, heq⟩ := Option.bind_eq_some_iff.1 ht
    cases heq
    exact (emitted_term operand hx).left

/-- The calls of an expression are emitted in its code. -/
theorem emitted_expression (t : Expr) {e : Expression} (ht : t.tree? h = some e) :
    Emitted h (Call.number h) t.calls (e.code h.className) := by
  obtain ⟨first, others⟩ := t
  obtain ⟨left, hleft, hrest⟩ := Option.bind_eq_some_iff.1 ht
  exact emitted_chain others hrest (emitted_term first hleft)

/-- The calls of a chain are emitted behind those of the expression before it. -/
theorem emitted_chain (t : Chain) {left e : Expression} {calls : List Call}
    (ht : t.tree? h left = some e)
    (hleft : Emitted h (Call.number h) calls (left.code h.className)) :
    Emitted h (Call.number h) (calls ++ t.calls) (e.code h.className) := by
  cases t with
  | nil =>
    cases ht
    rw [Chain.calls, List.append_nil]
    exact hleft
  | cons operator operand others =>
    obtain ⟨right, hright, hrest⟩ := Option.bind_eq_some_iff.1 ht
    rw [Chain.calls, ← List.append_assoc]
    exact emitted_chain others hrest (hleft.append (emitted_term operand hright)).left

/-- The calls of arguments are emitted in their code. -/
theorem emitted_arguments (ts : List Expr) {es : List Expression}
    (ht : argumentsTree? h ts = some es) :
    Emitted h (Call.number h) (argumentsCalls ts) (argumentsCode h.className es) := by
  cases ts with
  | nil => exact .nil
  | cons t ts =>
    obtain ⟨first, hfirst, hrest⟩ := Option.bind_eq_some_iff.1 ht
    obtain ⟨others, hothers, heq⟩ := Option.bind_eq_some_iff.1 hrest
    cases heq
    exact (emitted_expression t hfirst).append (emitted_arguments ts hothers)

end

/-! ## Statements -/

mutual

/-- The calls of a statement are emitted in its code. -/
theorem emitted_statement (t : Stmt) {s : Statement} (ht : t.tree? h = some s) (l : Labels) :
    Emitted h (Call.number h) t.calls (s.code h.className l).1 := by
  cases t with
  | assign name value =>
    obtain ⟨v, -, hrest⟩ := Option.bind_eq_some_iff.1 ht
    obtain ⟨x, hx, heq⟩ := Option.bind_eq_some_iff.1 hrest
    cases heq
    exact (emitted_expression value hx).left
  | assignElement array index value =>
    obtain ⟨v, -, hrest⟩ := Option.bind_eq_some_iff.1 ht
    obtain ⟨x, hx, hrest'⟩ := Option.bind_eq_some_iff.1 hrest
    obtain ⟨y, hy, heq⟩ := Option.bind_eq_some_iff.1 hrest'
    cases heq
    exact ((emitted_expression index hx).left.append (emitted_expression value hy)).left
  | ifThen condition body =>
    obtain ⟨x, hx, hrest⟩ := Option.bind_eq_some_iff.1 ht
    obtain ⟨b, hb, heq⟩ := Option.bind_eq_some_iff.1 hrest
    cases heq
    exact ((emitted_expression condition hx).left.append (emitted_statements body hb _)).left
  | ifElse condition body alternative =>
    obtain ⟨x, hx, hrest⟩ := Option.bind_eq_some_iff.1 ht
    obtain ⟨b, hb, hrest'⟩ := Option.bind_eq_some_iff.1 hrest
    obtain ⟨a, ha, heq⟩ := Option.bind_eq_some_iff.1 hrest'
    cases heq
    exact (((emitted_expression condition hx).left.append
      (emitted_statements body hb _)).left.append (emitted_statements alternative ha _)).left
  | «while» condition body =>
    obtain ⟨x, hx, hrest⟩ := Option.bind_eq_some_iff.1 ht
    obtain ⟨b, hb, heq⟩ := Option.bind_eq_some_iff.1 hrest
    cases heq
    exact ((emitted_expression condition hx).right.left.append (emitted_statements body hb _)).left
  | call callee arguments =>
    obtain ⟨⟨target, name⟩, hc, hrest⟩ := Option.bind_eq_some_iff.1 ht
    obtain ⟨es, ha, heq⟩ := Option.bind_eq_some_iff.1 hrest
    cases heq
    exact (emitted_invocation hc ha (emitted_arguments arguments ha)).left
  | «return» value =>
    cases value with
    | none => exact .nil
    | some t =>
      obtain ⟨-, ht⟩ := Option.ite_none_left_eq_some.1 ht
      obtain ⟨x, hx, heq⟩ := Option.bind_eq_some_iff.1 ht
      cases heq
      exact (emitted_expression t hx).left

/-- **The calls of statements are emitted in their code**, each with a part of its own. -/
theorem emitted_statements (ts : List Stmt) {ss : List Statement}
    (ht : statementsTree? h ts = some ss) (l : Labels) :
    Emitted h (Call.number h) (statementsCalls ts) (statementsCode h.className l ss).1 := by
  cases ts with
  | nil => exact .nil
  | cons t ts =>
    obtain ⟨first, hfirst, hrest⟩ := Option.bind_eq_some_iff.1 ht
    obtain ⟨others, hothers, heq⟩ := Option.bind_eq_some_iff.1 hrest
    cases heq
    exact (emitted_statement t hfirst l).append (emitted_statements ts hothers _)

end

end JackToolchain.Jack
