import JackToolchain.Proofs.Jack.Derivation.Expression
import JackToolchain.Proofs.Jack.Labels
import JackToolchain.Proofs.Jack.Scope
import JackToolchain.Proofs.Jack.Words

/-!
# What code is made of

The statements of a subroutine compile to few kinds of instructions, whose names and numbers
come from the tokens of the subroutine and from the variables in its reach.

* `Emits`: the instructions that there are.
* `emits_statements`: **statements compile to nothing else**.
-/

namespace JackToolchain.Jack

open Grammar Vm

/-- The accesses that code makes to `pointer`, `that` and `temp`. -/
def scratchAccesses : List Instruction :=
  [.push .pointer 0, .pop .pointer 1, .push .that 0, .pop .that 0, .push .temp 0, .pop .temp 0]

/-- The calls that code makes without being asked to. -/
def libraryCalls : List (String × Nat) :=
  [("Math.multiply", 2), ("Math.divide", 2), ("String.new", 1), ("String.appendChar", 2)]

/-- The instructions that the statements of a subroutine compile to. -/
inductive Emits (h : Header) : Instruction → Prop where
  | constant {n : Nat} (hn : n ≤ maxConstant) : Emits h (.push .constant n)
  | operate (operator : Operator) : Emits h (.operate operator)
  | scratch {i : Instruction} (hi : i ∈ scratchAccesses) : Emits h i
  | load {v : Variable} (hv : v ∈ h.scope.inReach) : Emits h v.push
  | store {v : Variable} (hv : v ∈ h.scope.inReach) : Emits h v.pop
  | library {name : String} {n : Nat} (hc : (name, n) ∈ libraryCalls) :
    Emits h (.call name n)
  | call {type name : String} {n : Nat} (ht : IsPlain type) (hn : IsPlain name)
    (hmax : n ≤ maxNumber) :
    Emits h (.call (qualifiedName type name) n)
  | label (k : Mark) (n : Nat) : Emits h (.label (k.label n))
  | goto (k : Mark) (n : Nat) : Emits h (.goto (k.label n))
  | ifGoto (k : Mark) (n : Nat) : Emits h (.ifGoto (k.label n))
  | «return» : Emits h .return

/-- The names that calls in a subroutine take from its declarations can be written. -/
structure Header.Plain (h : Header) : Prop where
  className : IsPlain h.className
  types : ∀ v ∈ h.scope.inReach, IsPlain v.type

/-- Words of a source text. -/
def Words (tokens : List Token) : Prop :=
  ∀ token ∈ tokens, token.IsWord

namespace Words

variable {token : Token} {tokens more : List Token}

theorem head (hw : Words (token :: tokens)) : token.IsWord :=
  hw token List.mem_cons_self

theorem tail (hw : Words (token :: tokens)) : Words tokens :=
  fun t ht => hw t (List.mem_cons_of_mem _ ht)

theorem left (hw : Words (tokens ++ more)) : Words tokens :=
  fun t ht => hw t (List.mem_append_left _ ht)

theorem right (hw : Words (tokens ++ more)) : Words more :=
  fun t ht => hw t (List.mem_append_right _ ht)

end Words

variable {h : Header} {e : Expression} {es : List Expression} {s : Statement}
  {ss : List Statement}

/-! ## Calls and strings -/

/-- An object whose member is called is a variable in reach. -/
theorem mem_inReach_of_resolve {c : Callee} {v : Variable} {name : String}
    (hc : c.resolve h = some (.object v, name)) : v ∈ h.scope.inReach := by
  cases c with
  | bare other => cases hc
  | member head other =>
    rw [Callee.resolve] at hc
    split at hc
    · next hv =>
      cases hc
      exact Scope.mem_inReach_of_find? hv
    · cases hc
  | this other =>
    rw [Callee.resolve] at hc
    split at hc <;> cases hc

/-- Both names of what is called can be written. -/
theorem plain_of_resolve {c : Callee} {target : Target} {name : String} (hh : h.Plain)
    (hc : c.resolve h = some (target, name)) (hw : Words c.tokens) :
    IsPlain (target.typeName h.className) ∧ IsPlain name := by
  cases c with
  | bare other =>
    cases hc
    exact ⟨hh.className, hw.head.toIsPlain⟩
  | member head other =>
    rw [Callee.resolve] at hc
    split at hc
    · next hv =>
      cases hc
      exact ⟨hh.types _ (Scope.mem_inReach_of_find? hv), hw.tail.tail.head.toIsPlain⟩
    · cases hc
      exact ⟨hw.head.toIsPlain, hw.tail.tail.head.toIsPlain⟩
  | this other =>
    rw [Callee.resolve] at hc
    split at hc
    · cases hc
      exact ⟨hh.className, hw.tail.tail.head.toIsPlain⟩
    · cases hc

theorem emits_receiver {target : Target}
    (ht : ∀ v, target = .object v → v ∈ h.scope.inReach) :
    ∀ i ∈ target.receiver, Emits h i := by
  cases target with
  | self => exact List.forall_mem_singleton.2 (.scratch (by decide))
  | object v => exact List.forall_mem_singleton.2 (.load (ht v rfl))
  | type other => exact nofun

theorem emits_call {c : Callee} {target : Target} {name : String} (hh : h.Plain)
    (hc : c.resolve h = some (target, name)) (hw : Words c.tokens)
    (hes : ∀ i ∈ argumentsCode h.className es, Emits h i) :
    ∀ i ∈ callCode h.className target name es, Emits h i := by
  obtain ⟨htype, hname⟩ := plain_of_resolve hh hc hw
  rw [callCode, Expression.code, List.forall_mem_append, List.forall_mem_append]
  refine ⟨⟨emits_receiver ?_, hes⟩,
    List.forall_mem_singleton.2 (.call htype hname (toNat_le_maxNumber _))⟩
  rintro v rfl
  exact mem_inReach_of_resolve hc

theorem length_le_utf16Size (cs : List Char) : cs.length ≤ utf16Size cs := by
  induction cs with
  | nil => exact Nat.le_refl _
  | cons c cs ih =>
    rw [utf16Size, List.length_cons]
    split <;> omega

theorem emits_string {value : String} (hv : isWritable value) :
    ∀ i ∈ stringCode value, Emits h i := by
  rw [isWritable, Bool.and_eq_true, decide_eq_true_eq] at hv
  obtain ⟨hsize, hall⟩ := hv
  have hlength : value.length ≤ maxConstant :=
    Nat.le_trans (length_le_utf16Size value.toList) hsize
  intro i hi
  rw [stringCode, List.mem_append] at hi
  rcases hi with hi | hi
  · simp only [List.mem_cons, List.not_mem_nil, or_false] at hi
    rcases hi with rfl | rfl
    · exact .constant hlength
    · exact .library (by decide)
  · obtain ⟨c, hc, hi⟩ := List.mem_flatMap.1 hi
    simp only [List.mem_cons, List.not_mem_nil, or_false] at hi
    rcases hi with rfl | rfl
    · exact .constant (by simpa using List.all_eq_true.1 hall c hc)
    · exact .library (by decide)

theorem emits_operator (operator : BinaryOperator) : Emits h operator.instruction := by
  cases operator with
  | multiply => exact .library (by decide)
  | divide => exact .library (by decide)
  | _ => exact .operate _

/-! ## Expressions -/

mutual

theorem emits_term (hh : h.Plain) (t : Term) {e : Expression} (ht : t.tree? h = some e)
    (hw : Words t.tokens) : ∀ i ∈ e.code h.className, Emits h i := by
  cases t with
  | integer value =>
    cases ht
    exact List.forall_mem_singleton.2 (.constant hw.head)
  | string value =>
    rw [Term.tree?] at ht
    split at ht
    · next hv =>
      cases ht
      exact emits_string hv
    · cases ht
  | «true» =>
    cases ht
    intro i hi
    simp only [Expression.code, List.mem_cons, List.not_mem_nil, or_false] at hi
    rcases hi with rfl | rfl
    · exact .constant (Nat.zero_le _)
    · exact .operate .not
  | «false» =>
    cases ht
    exact List.forall_mem_singleton.2 (.constant (Nat.zero_le _))
  | null =>
    cases ht
    exact List.forall_mem_singleton.2 (.constant (Nat.zero_le _))
  | this =>
    rw [Term.tree?] at ht
    split at ht
    · cases ht
      exact List.forall_mem_singleton.2 (.scratch (by decide))
    · cases ht
  | name name =>
    obtain ⟨v, hv, heq⟩ := Option.bind_eq_some_iff.1 ht
    cases heq
    exact List.forall_mem_singleton.2 (.load (Scope.mem_inReach_of_find? hv))
  | element array index =>
    obtain ⟨v, hv, hrest⟩ := Option.bind_eq_some_iff.1 ht
    obtain ⟨x, hx, heq⟩ := Option.bind_eq_some_iff.1 hrest
    cases heq
    intro i hi
    rw [Expression.code, List.mem_append] at hi
    rcases hi with hi | hi
    · exact emits_expr hh index hx hw.tail.tail.left i hi
    · simp only [List.mem_cons, List.not_mem_nil, or_false] at hi
      rcases hi with rfl | rfl | rfl | rfl
      · exact .load (Scope.mem_inReach_of_find? hv)
      · exact .operate .add
      · exact .scratch (by decide)
      · exact .scratch (by decide)
  | call callee arguments =>
    obtain ⟨⟨target, name⟩, hc, hrest⟩ := Option.bind_eq_some_iff.1 ht
    obtain ⟨vs, ha, heq⟩ := Option.bind_eq_some_iff.1 hrest
    cases heq
    exact emits_call hh hc hw.left (emits_arguments hh arguments ha hw.right.tail.left)
  | enclosed inner => exact emits_expr hh inner ht hw.tail.left
  | negate operand =>
    obtain ⟨x, hx, heq⟩ := Option.bind_eq_some_iff.1 ht
    cases heq
    rw [Expression.code, List.forall_mem_append]
    exact ⟨emits_term hh operand hx hw.tail, List.forall_mem_singleton.2 (.operate .neg)⟩
  | invert operand =>
    obtain ⟨x, hx, heq⟩ := Option.bind_eq_some_iff.1 ht
    cases heq
    rw [Expression.code, List.forall_mem_append]
    exact ⟨emits_term hh operand hx hw.tail, List.forall_mem_singleton.2 (.operate .not)⟩

theorem emits_expr (hh : h.Plain) (t : Expr) {e : Expression} (ht : t.tree? h = some e)
    (hw : Words t.tokens) : ∀ i ∈ e.code h.className, Emits h i := by
  obtain ⟨first, others⟩ := t
  obtain ⟨left, hleft, hrest⟩ := Option.bind_eq_some_iff.1 ht
  exact emits_chain hh others hrest hw.right (emits_term hh first hleft hw.left)

theorem emits_chain (hh : h.Plain) (c : Chain) {left e : Expression} (hc : c.tree? h left = some e)
    (hw : Words c.tokens) (hleft : ∀ i ∈ left.code h.className, Emits h i) :
    ∀ i ∈ e.code h.className, Emits h i := by
  cases c with
  | nil =>
    cases hc
    exact hleft
  | cons operator operand others =>
    obtain ⟨right, hright, hrest⟩ := Option.bind_eq_some_iff.1 hc
    refine emits_chain hh others hrest hw.tail.right ?_
    rw [Expression.code, List.forall_mem_append, List.forall_mem_append]
    exact ⟨⟨hleft, emits_term hh operand hright hw.tail.left⟩,
      List.forall_mem_singleton.2 (emits_operator operator)⟩

theorem emits_arguments (hh : h.Plain) (args : List Expr) {es : List Expression}
    (ha : argumentsTree? h args = some es) (hw : Words (argumentsTokens args)) :
    ∀ i ∈ argumentsCode h.className es, Emits h i := by
  cases args with
  | nil =>
    cases ha
    exact nofun
  | cons arg args =>
    obtain ⟨first, hfirst, hrest⟩ := Option.bind_eq_some_iff.1 ha
    obtain ⟨others, hothers, heq⟩ := Option.bind_eq_some_iff.1 hrest
    cases heq
    rw [argumentsCode, List.forall_mem_append]
    exact ⟨emits_expr hh arg hfirst hw.left, emits_moreArguments hh args hothers hw.right⟩

theorem emits_moreArguments (hh : h.Plain) (args : List Expr) {es : List Expression}
    (ha : argumentsTree? h args = some es) (hw : Words (moreTokens args)) :
    ∀ i ∈ argumentsCode h.className es, Emits h i := by
  cases args with
  | nil =>
    cases ha
    exact nofun
  | cons arg args =>
    obtain ⟨first, hfirst, hrest⟩ := Option.bind_eq_some_iff.1 ha
    obtain ⟨others, hothers, heq⟩ := Option.bind_eq_some_iff.1 hrest
    cases heq
    rw [argumentsCode, List.forall_mem_append]
    exact ⟨emits_expr hh arg hfirst hw.tail.left, emits_moreArguments hh args hothers hw.tail.right⟩

end

/-! ## Statements -/

mutual

theorem emits_stmt (hh : h.Plain) (t : Stmt) {s : Statement} (ht : t.tree? h = some s)
    (hw : Words t.tokens) (l : Labels) :
    ∀ i ∈ (s.code h.className l).1, Emits h i := by
  cases t with
  | assign name value =>
    obtain ⟨v, hv, hrest⟩ := Option.bind_eq_some_iff.1 ht
    obtain ⟨x, hx, heq⟩ := Option.bind_eq_some_iff.1 hrest
    cases heq
    rw [Statement.code, List.forall_mem_append]
    exact ⟨emits_expr hh value hx hw.tail.tail.tail.left,
      List.forall_mem_singleton.2 (.store (Scope.mem_inReach_of_find? hv))⟩
  | assignElement array index value =>
    obtain ⟨v, hv, hrest⟩ := Option.bind_eq_some_iff.1 ht
    obtain ⟨x, hx, hrest'⟩ := Option.bind_eq_some_iff.1 hrest
    obtain ⟨y, hy, heq⟩ := Option.bind_eq_some_iff.1 hrest'
    cases heq
    have hafter := hw.tail.tail.tail
    simp only [Statement.code, List.forall_mem_append, List.forall_mem_cons]
    refine ⟨⟨⟨emits_expr hh index hx hafter.left, ?_, .operate .add, nofun⟩,
      emits_expr hh value hy hafter.right.tail.tail.left⟩, ?_, ?_, ?_, ?_, nofun⟩
    · exact .load (Scope.mem_inReach_of_find? hv)
    all_goals exact .scratch (by decide)
  | ifThen condition body =>
    obtain ⟨x, hx, hrest⟩ := Option.bind_eq_some_iff.1 ht
    obtain ⟨b, hb, heq⟩ := Option.bind_eq_some_iff.1 hrest
    cases heq
    have hafter := hw.tail.tail
    simp only [Statement.code, List.forall_mem_append, List.forall_mem_cons]
    exact ⟨⟨⟨emits_expr hh condition hx hafter.left, .ifGoto .ifTrue _, .goto .ifFalse _,
      .label .ifTrue _, nofun⟩, emits_statements hh body hb hafter.right.tail.tail.left _⟩,
      .label .ifFalse _, nofun⟩
  | ifElse condition body alternative =>
    obtain ⟨x, hx, hrest⟩ := Option.bind_eq_some_iff.1 ht
    obtain ⟨b, hb, hrest'⟩ := Option.bind_eq_some_iff.1 hrest
    obtain ⟨a, ha, heq⟩ := Option.bind_eq_some_iff.1 hrest'
    cases heq
    have hafter := hw.tail.tail
    have hblocks := hafter.right.tail
    simp only [Statement.code, List.forall_mem_append, List.forall_mem_cons]
    exact ⟨⟨⟨⟨⟨emits_expr hh condition hx hafter.left, .ifGoto .ifTrue _, .goto .ifFalse _,
      .label .ifTrue _, nofun⟩, emits_statements hh body hb hblocks.left.tail.left _⟩,
      .goto .ifEnd _, .label .ifFalse _, nofun⟩,
      emits_statements hh alternative ha hblocks.right.tail.tail.left _⟩, .label .ifEnd _, nofun⟩
  | «while» condition body =>
    obtain ⟨x, hx, hrest⟩ := Option.bind_eq_some_iff.1 ht
    obtain ⟨b, hb, heq⟩ := Option.bind_eq_some_iff.1 hrest
    cases heq
    have hafter := hw.tail.tail
    simp only [Statement.code, List.forall_mem_append, List.forall_mem_cons]
    exact ⟨⟨⟨⟨⟨.label .whileExp _, nofun⟩, emits_expr hh condition hx hafter.left⟩,
      .operate .not, .ifGoto .whileEnd _, nofun⟩,
      emits_statements hh body hb hafter.right.tail.tail.left _⟩, .goto .whileExp _,
      .label .whileEnd _, nofun⟩
  | call callee arguments =>
    obtain ⟨⟨target, name⟩, hc, hrest⟩ := Option.bind_eq_some_iff.1 ht
    obtain ⟨vs, ha, heq⟩ := Option.bind_eq_some_iff.1 hrest
    cases heq
    rw [Statement.code, List.forall_mem_append]
    exact ⟨emits_call hh hc hw.tail.left (emits_arguments hh arguments ha hw.tail.right.tail.left),
      List.forall_mem_singleton.2 (.scratch (by decide))⟩
  | «return» value =>
    cases value with
    | none =>
      cases ht
      rw [Statement.code, List.forall_mem_cons]
      exact ⟨.constant (Nat.zero_le _), List.forall_mem_singleton.2 .return⟩
    | some t =>
      rw [Stmt.tree?] at ht
      split at ht
      · cases ht
      · obtain ⟨x, hx, heq⟩ := Option.bind_eq_some_iff.1 ht
        cases heq
        rw [Statement.code, List.forall_mem_append]
        exact ⟨emits_expr hh t hx hw.tail.left, List.forall_mem_singleton.2 .return⟩

/-- **Statements compile to the instructions that there are**, whatever labels are in use
before them. -/
theorem emits_statements (hh : h.Plain) (ts : List Stmt) {ss : List Statement}
    (ht : statementsTree? h ts = some ss) (hw : Words (statementsTokens ts)) (l : Labels) :
    ∀ i ∈ (statementsCode h.className l ss).1, Emits h i := by
  cases ts with
  | nil =>
    cases ht
    exact nofun
  | cons t ts =>
    obtain ⟨first, hfirst, hrest⟩ := Option.bind_eq_some_iff.1 ht
    obtain ⟨others, hothers, heq⟩ := Option.bind_eq_some_iff.1 hrest
    cases heq
    rw [statementsCode, List.forall_mem_append]
    exact ⟨emits_stmt hh t hfirst hw.left l, emits_statements hh ts hothers hw.right _⟩

end

end JackToolchain.Jack
