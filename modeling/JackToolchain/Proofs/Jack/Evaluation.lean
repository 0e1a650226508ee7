import JackToolchain.Proofs.Jack.Derivation.Soundness
import JackToolchain.Proofs.Jack.Leftovers
import JackToolchain.Proofs.Jack.Wide
import JackToolchain.Proofs.Vm.Machine

/-!
# Expressions keep their meaning

An expression is evaluated from left to right on the tree that its tokens spell: the
operators of a chain are applied in the order in which they stand, a call evaluates its
receiver first, and an array is read after its index. Calls may change the memory, and
nothing else does. The code computes the same, unless a call has more values than 16 bits count.

* `Expr.eval`: the value of an expression and the memory behind it.
* `Replaces`: what instructions do to the top of the stack, whatever is below it.
* `exec_expression`: **the code of an expression leaves its value on the stack exactly if every call
  in it can count its values**.
* `exec_expression_miscounted`: a call of 65536 arguments leaves them on the stack.
-/

namespace JackToolchain.Jack

open Vm Grammar

/-- The value of a variable in a subroutine. -/
def Variable.value (v : Variable) (f : Frame) (m : Memory) : Word :=
  match v.kind with
  | .static => m.statics v.index.toNat
  | .field => m.heap (f.this + BitVec.ofNat 16 v.index.toNat)
  | .argument => f.arguments v.index.toNat
  | .local => f.locals v.index.toNat

/-- The object that a call is made on, if there is one. -/
def Target.receiverValue (target : Target) (f : Frame) (m : Memory) : List Word :=
  match target with
  | .self => [f.this]
  | .object v => [v.value f m]
  | .type _ => []

section eval

variable (μ : Meaning)

/-- The result of an operation and the memory behind it. A product and a quotient are
calls. -/
def BinaryOperator.apply (operator : BinaryOperator) (x y : Word) (m : Memory) : Word × Memory :=
  match operator with
  | .add => (μ.add x y, m)
  | .subtract => (μ.sub x y, m)
  | .multiply => μ.call "Math.multiply" [x, y] m
  | .divide => μ.call "Math.divide" [x, y] m
  | .and => (μ.and x y, m)
  | .or => (μ.or x y, m)
  | .less => (μ.lt x y, m)
  | .greater => (μ.gt x y, m)
  | .equal => (μ.eq x y, m)

/-- A string with characters appended to it. -/
def appendAll : List Char → Word → Memory → Word × Memory
  | [], s, m => (s, m)
  | c :: cs, s, m =>
    let (s, m) := μ.call "String.appendChar" [s, BitVec.ofNat 16 c.toNat] m
    appendAll cs s m

/-- A new string. -/
def newString (value : String) (m : Memory) : Word × Memory :=
  let (s, m) := μ.call "String.new" [BitVec.ofNat 16 value.length] m
  appendAll μ value.toList s m

namespace Grammar

variable (h : Header) (f : Frame)

mutual

/-- The value of a term in a subroutine, and the memory behind it. -/
def Term.eval : Term → Memory → Option (Word × Memory)
  | .integer value, m => some (BitVec.ofNat 16 value, m)
  | .string value, m => some (newString μ value m)
  | .true, m => some (μ.not 0, m)
  | .false, m => some (0, m)
  | .null, m => some (0, m)
  | .this, m => some (f.this, m)
  | .name name, m => do return ((← h.scope.find? name).value f m, m)
  | .element array index, m => do
    let v ← h.scope.find? array
    let (i, m) ← index.eval m
    return (m.heap (μ.add i (v.value f m)), m)
  | .call callee arguments, m => do
    let (target, name) ← callee.resolve h
    let receiver := target.receiverValue f m
    let (values, m) ← evalAll arguments m
    return μ.call (qualifiedName (target.typeName h.className) name) (receiver ++ values) m
  | .enclosed e, m => e.eval m
  | .negate operand, m => do
    let (v, m) ← operand.eval m
    return (μ.neg v, m)
  | .invert operand, m => do
    let (v, m) ← operand.eval m
    return (μ.not v, m)

/-- The value of an expression in a subroutine, and the memory behind it. -/
def Expr.eval : Expr → Memory → Option (Word × Memory)
  | .mk first others, m => do
    let (v, m) ← first.eval m
    others.eval v m

/-- The value that operators and terms make of the value before them. -/
def Chain.eval : Chain → Word → Memory → Option (Word × Memory)
  | .nil, v, m => some (v, m)
  | .cons operator operand others, v, m => do
    let (w, m) ← operand.eval m
    let (v, m) := operator.apply μ v w m
    others.eval v m

/-- The values of arguments, from the first to the last. -/
def evalAll : List Expr → Memory → Option (List Word × Memory)
  | [], m => some ([], m)
  | e :: es, m => do
    let (v, m) ← e.eval m
    let (vs, m) ← evalAll es m
    return (v :: vs, m)

end

end Grammar

end eval

/-! ## The top of the stack -/

section replaces

variable {μ : Meaning} {f : Frame} {m m₁ m₂ : Memory}

/-- Instructions that put values in place of others on top of the stack. The frame stays,
and so does the stack below; `that` may be bound anew. -/
def Replaces (μ : Meaning) (f : Frame) (us : List Word) (m : Memory) (code : List Instruction)
    (vs : List Word) (m' : Memory) : Prop :=
  ∀ stack that temps, ∃ that',
    exec μ code ⟨us ++ stack, ⟨m, f⟩, that, temps⟩ = some ⟨vs ++ stack, ⟨m', f⟩, that', temps⟩

namespace Replaces

variable {us vs ws : List Word} {code more : List Instruction}

theorem append (h₁ : Replaces μ f us m code vs m₁) (h₂ : Replaces μ f vs m₁ more ws m₂) :
    Replaces μ f us m (code ++ more) ws m₂ := by
  intro stack that temps
  obtain ⟨that₁, hx₁⟩ := h₁ stack that temps
  obtain ⟨that₂, hx₂⟩ := h₂ stack that₁ temps
  refine ⟨that₂, ?_⟩
  rw [exec_append, hx₁, Option.bind_some, hx₂]

/-- What is done above other values. -/
theorem above (h : Replaces μ f us m code vs m₁) (ws : List Word) :
    Replaces μ f (us ++ ws) m code (vs ++ ws) m₁ := by
  intro stack that temps
  obtain ⟨that₁, hx⟩ := h (ws ++ stack) that temps
  refine ⟨that₁, ?_⟩
  rw [List.append_assoc, hx, List.append_assoc]

/-- The values of a second part stand above those of the first. -/
theorem append_above (h₁ : Replaces μ f [] m code vs m₁) (h₂ : Replaces μ f [] m₁ more ws m₂) :
    Replaces μ f [] m (code ++ more) (ws ++ vs) m₂ :=
  h₁.append (h₂.above vs)

end Replaces

theorem replaces_nil : Replaces μ f [] m [] [] m := by
  intro stack that temps
  exact ⟨that, rfl⟩

theorem replaces_constant (n : Nat) :
    Replaces μ f [] m [.push .constant n] [BitVec.ofNat 16 n] m := by
  intro stack that temps
  exact ⟨that, rfl⟩

theorem replaces_this : Replaces μ f [] m [.push .pointer 0] [f.this] m := by
  intro stack that temps
  exact ⟨that, rfl⟩

theorem replaces_variable (v : Variable) : Replaces μ f [] m [v.push] [v.value f m] m := by
  intro stack that temps
  refine ⟨that, ?_⟩
  unfold Variable.push Variable.value
  cases v.kind <;> rfl

theorem replaces_neg (v : Word) : Replaces μ f [v] m [.operate .neg] [μ.neg v] m := by
  intro stack that temps
  refine ⟨that, ?_⟩
  cases stack <;> rfl

theorem replaces_not (v : Word) : Replaces μ f [v] m [.operate .not] [μ.not v] m := by
  intro stack that temps
  refine ⟨that, ?_⟩
  cases stack <;> rfl

/-- A call takes the arguments, of which the last is on top. -/
theorem replaces_call (name : String) (values : List Word) {count : Nat}
    (hcount : count = values.length) :
    Replaces μ f values.reverse m [.call name count] [(μ.call name values m).1]
      (μ.call name values m).2 := by
  intro stack that temps
  refine ⟨that, ?_⟩
  have hlength : count = values.reverse.length := by rw [hcount, List.length_reverse]
  simp [exec, effect, hlength]

/-- The lower of two values is the left operand. -/
theorem replaces_operator (operator : BinaryOperator) (v w : Word) :
    Replaces μ f [w, v] m [operator.instruction] [(operator.apply μ v w m).1]
      (operator.apply μ v w m).2 := by
  cases operator with
  | multiply => exact replaces_call "Math.multiply" [v, w] rfl
  | divide => exact replaces_call "Math.divide" [v, w] rfl
  | _ => exact fun _ that _ => ⟨that, rfl⟩

/-- An index becomes the element of an array, which is read through `that`. -/
theorem replaces_element (array : Variable) (i : Word) :
    Replaces μ f [i] m [array.push, .operate .add, .pop .pointer 1, .push .that 0]
      [m.heap (μ.add i (array.value f m))] m := by
  have haddress : Replaces μ f [i] m ([array.push] ++ [.operate .add])
      [μ.add i (array.value f m)] m :=
    ((replaces_variable array).above [i]).append fun _ that _ => ⟨that, rfl⟩
  refine haddress.append fun stack that temps => ⟨μ.add i (array.value f m), ?_⟩
  simp [exec, effect, State.read?, State.write?]

theorem replaces_receiver (target : Target) :
    Replaces μ f [] m target.receiver (target.receiverValue f m).reverse m := by
  cases target with
  | self => exact replaces_this
  | object v => exact replaces_variable v
  | type name => exact replaces_nil

theorem receiver_length (target : Target) :
    target.receiver.length = (target.receiverValue f m).length := by
  cases target <;> rfl

theorem replaces_appendAll (cs : List Char) (s : Word) :
    Replaces μ f [s] m
      (cs.flatMap fun c => [.push .constant c.toNat, .call "String.appendChar" 2])
      [(appendAll μ cs s m).1] (appendAll μ cs s m).2 := by
  induction cs generalizing s m with
  | nil => exact replaces_nil.above [s]
  | cons c cs ih =>
    have hc := ((replaces_constant (μ := μ) (f := f) (m := m) c.toNat).above [s]).append
      (replaces_call "String.appendChar" [s, BitVec.ofNat 16 c.toNat] rfl)
    exact hc.append (ih _)

theorem replaces_string (value : String) :
    Replaces μ f [] m (stringCode value) [(newString μ value m).1] (newString μ value m).2 := by
  have hnew := (replaces_constant (μ := μ) (f := f) (m := m) value.length).append
    (replaces_call "String.new" [BitVec.ofNat 16 value.length] rfl)
  exact hnew.append (replaces_appendAll value.toList _)

end replaces

/-! ## Expressions -/

section correct

variable {μ : Meaning} {h : Header} {f : Frame} {m : Memory}

/-- The receiver stands below the arguments, and the call takes them together if it can count
them. -/
theorem replaces_invocation {target : Target} {name : String} {arguments : List Expression}
    {values : List Word} {m₁ : Memory} (hlength : arguments.length = values.length)
    (hfits : arguments.length + target.receiver.length ≤ maxNumber)
    (ha : Replaces μ f [] m (argumentsCode h.className arguments) values.reverse m₁) :
    let called := μ.call (qualifiedName (target.typeName h.className) name)
      (target.receiverValue f m ++ values) m₁
    Replaces μ f [] m (callCode h.className target name arguments) [called.1] called.2 := by
  -- on the stack the last argument is on top and the receiver at the bottom
  have hoperands := (replaces_receiver target).append_above ha
  rw [← List.reverse_append] at hoperands
  have hcount : (argumentCount arguments + target.receiverCount).toNat =
      (target.receiverValue f m ++ values).length := by
    rw [toNat_argumentCount, counted_eq_iff.2 hfits, List.length_append, ← receiver_length,
      ← hlength, Nat.add_comm]
  rw [callCode, Expression.code]
  exact hoperands.append (replaces_call _ _ hcount)

mutual

/-- The code of a term leaves its value on the stack. -/
theorem replaces_term (t : Term) {e : Expression} (m : Memory) (ht : t.tree? h = some e)
    (hfits : ∀ call ∈ t.calls, call.Fits h) :
    ∃ v m', t.eval μ h f m = some (v, m') ∧ Replaces μ f [] m (e.code h.className) [v] m' := by
  cases t with
  | integer value =>
    cases ht
    exact ⟨_, _, rfl, replaces_constant value⟩
  | string value =>
    obtain ⟨-, ht⟩ := Option.ite_none_right_eq_some.1 ht
    cases ht
    exact ⟨_, _, rfl, replaces_string value⟩
  | «true» =>
    cases ht
    exact ⟨_, _, rfl, (replaces_constant 0).append (replaces_not 0)⟩
  | «false» =>
    cases ht
    exact ⟨_, _, rfl, replaces_constant 0⟩
  | null =>
    cases ht
    exact ⟨_, _, rfl, replaces_constant 0⟩
  | this =>
    obtain ⟨-, ht⟩ := Option.ite_none_right_eq_some.1 ht
    cases ht
    exact ⟨_, _, rfl, replaces_this⟩
  | name name =>
    obtain ⟨v, hv, ht⟩ := Option.bind_eq_some_iff.1 ht
    cases ht
    refine ⟨v.value f m, m, ?_, replaces_variable v⟩
    simp [Term.eval, hv]
  | element array index =>
    obtain ⟨v, hv, ht⟩ := Option.bind_eq_some_iff.1 ht
    obtain ⟨i, hi, ht⟩ := Option.bind_eq_some_iff.1 ht
    cases ht
    obtain ⟨w, m', hw, hcode⟩ := replaces_expression index m hi hfits
    refine ⟨m'.heap (μ.add w (v.value f m')), m', ?_, hcode.append (replaces_element v w)⟩
    simp [Term.eval, hv, hw]
  | call callee arguments =>
    obtain ⟨⟨target, name⟩, hc, ht⟩ := Option.bind_eq_some_iff.1 ht
    obtain ⟨values, ha, ht⟩ := Option.bind_eq_some_iff.1 ht
    cases ht
    obtain ⟨hinner, hcall⟩ := List.forall_mem_append.1 hfits
    obtain ⟨vs, m', hvs, hlength, hcode⟩ := replaces_arguments arguments m ha hinner
    have hcount : values.length + target.receiver.length ≤ maxNumber := by
      rw [count_of_resolve hc ha]
      exact hcall _ (List.mem_singleton_self _)
    refine ⟨_, _, ?_, replaces_invocation hlength hcount hcode⟩
    simp [Term.eval, hc, hvs]
  | enclosed e => exact replaces_expression e m ht hfits
  | negate operand =>
    obtain ⟨e, he, ht⟩ := Option.bind_eq_some_iff.1 ht
    cases ht
    obtain ⟨v, m', hv, hcode⟩ := replaces_term operand m he hfits
    refine ⟨μ.neg v, m', ?_, hcode.append (replaces_neg v)⟩
    simp [Term.eval, hv]
  | invert operand =>
    obtain ⟨e, he, ht⟩ := Option.bind_eq_some_iff.1 ht
    cases ht
    obtain ⟨v, m', hv, hcode⟩ := replaces_term operand m he hfits
    refine ⟨μ.not v, m', ?_, hcode.append (replaces_not v)⟩
    simp [Term.eval, hv]

/-- The code of an expression leaves its value on the stack. -/
theorem replaces_expression (e : Expr) {v : Expression} (m : Memory) (he : e.tree? h = some v)
    (hfits : ∀ call ∈ e.calls, call.Fits h) :
    ∃ w m', e.eval μ h f m = some (w, m') ∧ Replaces μ f [] m (v.code h.className) [w] m' := by
  cases e with
  | mk first others =>
    obtain ⟨left, hleft, he⟩ := Option.bind_eq_some_iff.1 he
    obtain ⟨hfirst, hothers⟩ := List.forall_mem_append.1 hfits
    obtain ⟨w, m', hw, hcode⟩ := replaces_term first m hleft hfirst
    obtain ⟨w', m'', hw', hcode'⟩ := replaces_chain others he hothers hcode
    refine ⟨w', m'', ?_, hcode'⟩
    simp [Expr.eval, hw, hw']

/-- The code of a chain goes on from the code of the expression before it. -/
theorem replaces_chain (c : Chain) {left v : Expression} {m m₁ : Memory} {w : Word}
    (hc : c.tree? h left = some v) (hfits : ∀ call ∈ c.calls, call.Fits h)
    (hleft : Replaces μ f [] m (left.code h.className) [w] m₁) :
    ∃ w' m', c.eval μ h f w m₁ = some (w', m') ∧
      Replaces μ f [] m (v.code h.className) [w'] m' := by
  cases c with
  | nil =>
    cases hc
    exact ⟨w, m₁, rfl, hleft⟩
  | cons operator operand others =>
    obtain ⟨right, hright, hc⟩ := Option.bind_eq_some_iff.1 hc
    obtain ⟨hoperand, hothers⟩ := List.forall_mem_append.1 hfits
    obtain ⟨x, m₂, hx, hcode⟩ := replaces_term operand m₁ hright hoperand
    -- the operation so far is the left operand of the next one
    have hbinary := (hleft.append_above hcode).append (replaces_operator operator w x)
    obtain ⟨w', m', hw', hcode'⟩ := replaces_chain others hc hothers hbinary
    refine ⟨w', m', ?_, hcode'⟩
    simp [Chain.eval, hx, hw']

/-- The code of arguments leaves their values on the stack, the last on top. -/
theorem replaces_arguments (es : List Expr) {arguments : List Expression} (m : Memory)
    (ha : argumentsTree? h es = some arguments) (hfits : ∀ call ∈ argumentsCalls es, call.Fits h) :
    ∃ vs m', evalAll μ h f es m = some (vs, m') ∧ arguments.length = vs.length ∧
      Replaces μ f [] m (argumentsCode h.className arguments) vs.reverse m' := by
  cases es with
  | nil =>
    cases ha
    exact ⟨[], m, rfl, rfl, replaces_nil⟩
  | cons e es =>
    obtain ⟨v, hv, ha⟩ := Option.bind_eq_some_iff.1 ha
    obtain ⟨others, hothers, ha⟩ := Option.bind_eq_some_iff.1 ha
    cases ha
    obtain ⟨hfirst, hmore⟩ := List.forall_mem_append.1 hfits
    obtain ⟨w, m₁, hw, hcode⟩ := replaces_expression e m hv hfirst
    obtain ⟨ws, m₂, hws, hlength, hcodes⟩ := replaces_arguments es m₁ hothers hmore
    refine ⟨w :: ws, m₂, ?_, congrArg Nat.succ hlength, ?_⟩
    · simp [evalAll, hw, hws]
    · rw [List.reverse_cons]
      exact hcode.append_above hcodes

end

/-- Code that leaves one value has calls that fit. -/
theorem fits_of_exec {e : Expr} {x : Expression} (hx : e.tree? h = some x) {s t : State}
    (hcode : exec μ (x.code h.className) s = some t)
    (hlength : t.stack.length = s.stack.length + 1) : ∀ call ∈ e.calls, call.Fits h := by
  have hheight := length_of_exec hcode (climb_expression ..)
  refine (leftover_expression e hx).1 ?_
  omega

end correct

/-- **Expressions keep their meaning.** Take an expression that is read to its end, whatever
variables are declared. Its code runs from any state, whatever the operators and the calls
compute: it leaves the value on top of the stack, the stack below as it was, and the memory
behind the calls of the expression. Only `that` may be bound anew. This is so exactly if every
call in the expression has at most 65535 values: one with more leaves values on the stack. -/
theorem exec_expression (e : Expr) {h : Header} {ls r : List Lexeme}
    (hl : ls.map Lexeme.token = e.tokens) {t : Taken Expression (ls ++ r)}
    (ht : readExpression h (ls ++ r) = .ok t) (hr : t.rest = r) (μ : Meaning) (s : State) :
    (∀ call ∈ e.calls, call.Fits h) ↔
      ∃ v m that, e.eval μ h s.store.toFrame s.store.toMemory = some (v, m) ∧
        exec μ (t.value.code h.className) s =
          some { s with stack := v :: s.stack, store.toMemory := m, that := that } := by
  have hread : expression? h (ls ++ r) = some (t.value, r) := by
    rw [expression?, ht, taken?_ok, hr]
  have htree : e.tree? h = some t.value := tree?_of_expression? hl hread
  constructor
  · intro hfits
    obtain ⟨v, m, hv, hcode⟩ := replaces_expression (μ := μ) e s.store.toMemory htree hfits
    obtain ⟨that, hx⟩ := hcode s.stack s.that s.temps
    exact ⟨v, m, that, hv, hx⟩
  · rintro ⟨v, m, that, -, hx⟩
    exact fits_of_exec htree hx rfl

/-- The operators of `1 + 2 * 3` are applied in their order. -/
theorem exec_expression_left_to_right :
    let μ : Meaning := ⟨Arithmetic.words, fun _ values m => (values.foldl (· * ·) 1, m)⟩
    let h : Header := ⟨"Main", .function, false, "run", {}⟩
    let ts : List Lexeme := [⟨.integer 1, 0⟩, ⟨.symbol .plus, 2⟩, ⟨.integer 2, 4⟩,
      ⟨.symbol .asterisk, 6⟩, ⟨.integer 3, 8⟩, ⟨.symbol .semicolon, 9⟩]
    let s : State := ⟨[7], ⟨⟨fun _ => 0, fun _ => 0⟩, ⟨fun _ => 0, fun _ => 0, 0⟩⟩, 0, fun _ => 0⟩
    ∃ t : Taken Expression ts, readExpression h ts = .ok t ∧
      ∃ that, exec μ (t.value.code "Main") s = some { s with stack := [9, 7], that := that } := by
  intro μ h ts s
  let e : Expr := .mk (.integer 1) (.cons .add (.integer 2) (.cons .multiply (.integer 3) .nil))
  have hl : (ts.take 5).map Lexeme.token = e.tokens := rfl
  have hread : expression? h ts = some (_, [⟨.symbol .semicolon, 9⟩]) :=
    expression?_tokens e hl (.of_front rfl (by decide))
  obtain ⟨hr, ht⟩ := eq_ok_of_taken? hread
  obtain ⟨v, m, that, hv, hx⟩ := (exec_expression e hl ht rfl μ s).1 nofun
  cases hv
  exact ⟨_, ht, that, hx⟩

/-- A call runs where there are enough values, and puts one in their place. -/
theorem exists_exec_call {μ : Meaning} {s : State} {n : Nat} (name : String)
    (hn : n ≤ s.stack.length) : ∃ s', exec μ [.call name n] s = some s' ∧
      s'.stack.length = s.stack.length - n + 1 := by
  simp only [exec, effect, if_pos hn, Option.bind_some]
  exact ⟨_, rfl, by simp⟩

/-- The code of a wide call takes the arguments that are counted, and leaves the others below the
result. -/
theorem exec_wideExpr {h : Header} {x : Variable} (hx : h.scope.find? (varName 0) = some x)
    (hg : h.scope.find? "Main" = none) (m : Nat) (μ : Meaning) (s : State) :
    ∃ e v mem s', (wideExpr m).tree? h = some e ∧
      (wideExpr m).eval μ h s.store.toFrame s.store.toMemory = some (v, mem) ∧
      exec μ (e.code h.className) s = some s' ∧
      s'.stack.length = s.stack.length + (m - counted m) + 1 := by
  have hinner : ∀ call ∈ argumentsCalls (wideCall m).arguments, call.Fits h := by
    rw [argumentsCalls_wideCall]
    exact List.forall_mem_nil _
  obtain ⟨values, mem, hvalues, hlength, hcode⟩ := replaces_arguments (μ := μ)
    (f := s.store.toFrame) (wideCall m).arguments s.store.toMemory (argumentsTree?_wideCall hx m)
    hinner
  obtain ⟨that, hoperands⟩ := hcode s.stack s.that s.temps
  have hvaluesLength : (values.reverse ++ s.stack).length = m + s.stack.length := by
    rw [List.length_append, List.length_reverse, ← hlength, List.length_replicate]
  obtain ⟨passed, hpassed, hheight⟩ : ∃ passed,
      exec μ (argumentsCode h.className (List.replicate m (.variable x))) s = some passed ∧
        passed.stack.length = m + s.stack.length := ⟨_, hoperands, hvaluesLength⟩
  have hle := counted_self_le m
  obtain ⟨s', hs', hstack⟩ := exists_exec_call (μ := μ) (s := passed) (n := counted m) "Main.g"
    (by omega)
  have heval : (wideExpr m).eval μ h s.store.toFrame s.store.toMemory =
      some (μ.call "Main.g" values mem) := by
    simp [wideExpr, Expr.eval, Term.eval, Chain.eval, resolve_wideCall hg, hvalues,
      Target.receiverValue, Target.typeName, qualifiedName]
  refine ⟨_, _, _, s', tree?_wideExpr hx hg m, heval, ?_, by omega⟩
  rw [Expression.code, toNat_argumentCount, List.length_replicate, exec_append]
  exact (congrArg (Option.bind · _) hpassed).trans hs'

/-- **A call of 65536 arguments leaves all of them below its result**, on any stack and whatever
the operators and the calls compute. -/
theorem exec_expression_miscounted :
    let h : Header := ⟨"Main", .function, false, "f",
      ⟨[], [⟨varName 0, "int", .local, 0⟩], {}, ⟨0, 1⟩⟩⟩
    let ls : List Lexeme := (wideExpr 65536).tokens.map (⟨·, 0⟩)
    let r : List Lexeme := [⟨.symbol .semicolon, 0⟩]
    ls.map Lexeme.token = (wideExpr 65536).tokens ∧
      ∃ t : Taken Expression (ls ++ r), readExpression h (ls ++ r) = .ok t ∧ t.rest = r ∧
        ∀ (μ : Meaning) (s : State), ∃ s', exec μ (t.value.code h.className) s = some s' ∧
          s'.stack.length = s.stack.length + 65537 := by
  intro h ls r
  have hx : h.scope.find? (varName 0) = some ⟨varName 0, "int", .local, 0⟩ := by decide
  have hg : h.scope.find? "Main" = none := by decide
  have hl : ls.map Lexeme.token = (wideExpr 65536).tokens := by
    rw [List.map_map]
    exact List.map_id _
  have htree := tree?_wideExpr hx hg 65536
  have hends : ExprEnds (wideExpr 65536).tokens r := .of_front rfl (by decide)
  have hread := (expression?_tokens _ hl hends).trans (congrArg (Option.map _) htree)
  obtain ⟨hr, ht⟩ := eq_ok_of_taken? hread
  refine ⟨hl, _, ht, rfl, fun μ s => ?_⟩
  obtain ⟨e, v, mem, s', he, -, hcode, hheight⟩ := exec_wideExpr hx hg 65536 μ s
  have hzero : counted 65536 = 0 := by decide
  rw [hzero] at hheight
  obtain rfl := Option.some.inj (htree.symm.trans he)
  exact ⟨s', hcode, hheight⟩

end JackToolchain.Jack
