import JackToolchain.Proofs.Jack.Scope

/-!
# The rules on names and values

What the grammar alone does not say: which names have to be declared, where there is an
object, where a value may be returned and which strings can be written.

* `Term.needs` to `statementsNeeds`: what a tree asks of the subroutine that it stands in.
* `isSome_statementsTree?_iff`: a tree means something if its needs are met.
* `mem_tokens_of_statementsNeeds`: a name that is needed is spelled.
* `Sub.Legal`, `Cls.Legal`: the rules for a whole class.
-/

namespace JackToolchain.Jack

namespace Grammar

/-! ## Needs -/

/-- What a part of a tree asks of the subroutine that it stands in: a variable in reach, a
current object, a result to return, or that a string can be written. -/
inductive Need where
  | variable (name : String)
  | object
  | result
  | string (value : String)

/-- What stands before the arguments of a call needs an object if it is `this`. -/
def Callee.needs : Callee → List Need
  | .this _ => [.object]
  | .bare _ | .member _ _ => []

mutual

/-- What a term needs. -/
def Term.needs : Term → List Need
  | .integer _ | .true | .false | .null => []
  | .string value => [.string value]
  | .this => [.object]
  | .name name => [.variable name]
  | .element array index => .variable array :: index.needs
  | .call callee arguments => callee.needs ++ argumentsNeeds arguments
  | .enclosed e => e.needs
  | .negate operand => operand.needs
  | .invert operand => operand.needs

/-- What an expression needs. -/
def Expr.needs : Expr → List Need
  | .mk first others => first.needs ++ others.needs

/-- What the terms behind operators need. -/
def Chain.needs : Chain → List Need
  | .nil => []
  | .cons _ operand others => operand.needs ++ others.needs

/-- What arguments need. -/
def argumentsNeeds : List Expr → List Need
  | [] => []
  | e :: es => e.needs ++ argumentsNeeds es

end

mutual

/-- What a statement needs. -/
def Stmt.needs : Stmt → List Need
  | .assign name value => .variable name :: value.needs
  | .assignElement array index value => .variable array :: (index.needs ++ value.needs)
  | .ifThen condition body => condition.needs ++ statementsNeeds body
  | .ifElse condition body alternative =>
    condition.needs ++ (statementsNeeds body ++ statementsNeeds alternative)
  | .while condition body => condition.needs ++ statementsNeeds body
  | .call callee arguments => callee.needs ++ argumentsNeeds arguments
  | .return none => []
  | .return (some value) => .result :: value.needs

/-- What statements need. -/
def statementsNeeds : List Stmt → List Need
  | [] => []
  | s :: ss => s.needs ++ statementsNeeds ss

end

/-- Whether a subroutine has what a part of its tree needs. -/
def Need.MetIn (h : Header) : Need → Prop
  | .variable name => (h.scope.find? name).isSome
  | .object => h.hasObject
  | .result => ¬ h.isVoid
  | .string value => isWritable value

/-! ## The rules -/

/-- The names that a subroutine declares. -/
def Sub.names (s : Sub) : List String :=
  s.parameters.map Parameter.name ++ s.declarations.flatMap VarDec.names

/-- The names that a class declares. -/
def Cls.names (c : Cls) : List String :=
  c.declarations.flatMap VarDec.names

/-- The rules for a subroutine of a class that declares the given names. -/
structure Sub.Legal (classNames : List String) (s : Sub) : Prop where
  names : s.names.Nodup
  declared : ∀ name, .variable name ∈ statementsNeeds s.body →
    name ∈ s.names ∨ name ∈ classNames
  object : .object ∈ statementsNeeds s.body → s.kind ≠ .function
  result : .result ∈ statementsNeeds s.body → s.result ≠ none
  strings : ∀ value, .string value ∈ statementsNeeds s.body → isWritable value

/-- The rules for a class. -/
structure Cls.Legal (c : Cls) : Prop where
  names : c.names.Nodup
  subroutines : ∀ s ∈ c.subroutines, s.Legal c.names

end Grammar

open Grammar

/-! ## Needs are what a meaning takes -/

section needs

variable {h : Header} {name : String}

theorem isSome_resolve_iff (c : Callee) :
    (c.resolve h).isSome ↔ ∀ n ∈ c.needs, n.MetIn h := by
  cases c with
  | bare name => simp [Callee.resolve, Callee.needs]
  | member head name =>
    rw [Callee.resolve, Callee.needs]
    cases h.scope.find? head <;> simp
  | this name =>
    cases ho : h.hasObject <;> simp [Callee.resolve, Callee.needs, Need.MetIn, ho]

mutual

theorem isSome_termTree?_iff (t : Term) : (t.tree? h).isSome ↔ ∀ n ∈ t.needs, n.MetIn h := by
  cases t with
  | string value => simp [Term.tree?, Term.needs, Need.MetIn]
  | this => simp [Term.tree?, Term.needs, Need.MetIn]
  | name name =>
    rw [Term.tree?, Term.needs, List.forall_mem_singleton, Need.MetIn]
    cases h.scope.find? name <;> simp
  | element array index =>
    rw [Term.tree?, Term.needs, List.forall_mem_cons, ← isSome_exprTree?_iff index, Need.MetIn]
    cases h.scope.find? array <;> cases index.tree? h <;> simp
  | call callee arguments =>
    rw [Term.tree?, Term.needs, List.forall_mem_append, ← isSome_resolve_iff callee,
      ← isSome_argumentsTree?_iff arguments]
    cases callee.resolve h <;> cases argumentsTree? h arguments <;> simp
  | enclosed e =>
    rw [Term.tree?, Term.needs]
    exact isSome_exprTree?_iff e
  | negate operand =>
    rw [Term.tree?, Term.needs, ← isSome_termTree?_iff operand]
    cases operand.tree? h <;> simp
  | invert operand =>
    rw [Term.tree?, Term.needs, ← isSome_termTree?_iff operand]
    cases operand.tree? h <;> simp
  | _ => simp [Term.tree?, Term.needs]

theorem isSome_exprTree?_iff (e : Expr) : (e.tree? h).isSome ↔ ∀ n ∈ e.needs, n.MetIn h := by
  obtain ⟨first, others⟩ := e
  rw [Expr.tree?, Expr.needs, List.forall_mem_append, ← isSome_termTree?_iff first]
  cases first.tree? h with
  | none => simp
  | some left => simp [isSome_chainTree?_iff others left]

theorem isSome_chainTree?_iff (c : Chain) (left : Expression) :
    (c.tree? h left).isSome ↔ ∀ n ∈ c.needs, n.MetIn h := by
  cases c with
  | nil => simp [Chain.tree?, Chain.needs]
  | cons operator operand others =>
    rw [Chain.tree?, Chain.needs, List.forall_mem_append, ← isSome_termTree?_iff operand]
    cases operand.tree? h with
    | none => simp
    | some right => simp [isSome_chainTree?_iff others (.binary left operator right)]

theorem isSome_argumentsTree?_iff (es : List Expr) :
    (argumentsTree? h es).isSome ↔ ∀ n ∈ argumentsNeeds es, n.MetIn h := by
  cases es with
  | nil => simp [argumentsTree?, argumentsNeeds]
  | cons e es =>
    rw [argumentsTree?, argumentsNeeds, List.forall_mem_append, ← isSome_exprTree?_iff e,
      ← isSome_argumentsTree?_iff es]
    cases e.tree? h <;> cases argumentsTree? h es <;> simp

end

mutual

theorem isSome_stmtTree?_iff (s : Stmt) : (s.tree? h).isSome ↔ ∀ n ∈ s.needs, n.MetIn h := by
  cases s with
  | assign name value =>
    rw [Stmt.tree?, Stmt.needs, List.forall_mem_cons, ← isSome_exprTree?_iff value, Need.MetIn]
    cases h.scope.find? name <;> cases value.tree? h <;> simp
  | assignElement array index value =>
    rw [Stmt.tree?, Stmt.needs, List.forall_mem_cons, List.forall_mem_append,
      ← isSome_exprTree?_iff index, ← isSome_exprTree?_iff value, Need.MetIn]
    cases h.scope.find? array <;> cases index.tree? h <;> cases value.tree? h <;> simp
  | ifThen condition body =>
    rw [Stmt.tree?, Stmt.needs, List.forall_mem_append, ← isSome_exprTree?_iff condition,
      ← isSome_statementsTree?_iff body]
    cases condition.tree? h <;> cases statementsTree? h body <;> simp
  | ifElse condition body alternative =>
    rw [Stmt.tree?, Stmt.needs, List.forall_mem_append, List.forall_mem_append,
      ← isSome_exprTree?_iff condition, ← isSome_statementsTree?_iff body,
      ← isSome_statementsTree?_iff alternative]
    cases condition.tree? h <;> cases statementsTree? h body <;>
      cases statementsTree? h alternative <;> simp
  | «while» condition body =>
    rw [Stmt.tree?, Stmt.needs, List.forall_mem_append, ← isSome_exprTree?_iff condition,
      ← isSome_statementsTree?_iff body]
    cases condition.tree? h <;> cases statementsTree? h body <;> simp
  | call callee arguments =>
    rw [Stmt.tree?, Stmt.needs, List.forall_mem_append, ← isSome_resolve_iff callee,
      ← isSome_argumentsTree?_iff arguments]
    cases callee.resolve h <;> cases argumentsTree? h arguments <;> simp
  | «return» value =>
    cases value with
    | none => simp [Stmt.tree?, Stmt.needs]
    | some e =>
      rw [Stmt.tree?, Stmt.needs, List.forall_mem_cons, ← isSome_exprTree?_iff e, Need.MetIn]
      cases h.isVoid <;> cases e.tree? h <;> simp

/-- Statements mean something in a subroutine that has what they need. -/
theorem isSome_statementsTree?_iff (ss : List Stmt) :
    (statementsTree? h ss).isSome ↔ ∀ n ∈ statementsNeeds ss, n.MetIn h := by
  cases ss with
  | nil => simp [statementsTree?, statementsNeeds]
  | cons s ss =>
    rw [statementsTree?, statementsNeeds, List.forall_mem_append, ← isSome_stmtTree?_iff s,
      ← isSome_statementsTree?_iff ss]
    cases s.tree? h <;> cases statementsTree? h ss <;> simp

end

end needs

/-! ## Needed names are spelled -/

section spelled

variable {name : String}

mutual

theorem mem_tokens_of_termNeeds (t : Term) (hn : .variable name ∈ t.needs) :
    .identifier name ∈ t.tokens := by
  cases t with
  | name other =>
    obtain ⟨⟩ := List.mem_singleton.1 hn
    exact List.mem_singleton_self _
  | element array index =>
    rcases List.mem_cons.1 hn with ⟨⟨⟩⟩ | hn
    · exact List.mem_cons_self
    · have hindex := mem_tokens_of_exprNeeds index hn
      simp [Term.tokens, hindex]
  | call callee arguments =>
    have harguments := mem_tokens_of_argumentsNeeds arguments
    cases callee <;> simp_all [Term.needs, Term.tokens, Callee.needs]
  | enclosed e =>
    have he := mem_tokens_of_exprNeeds e hn
    simp [Term.tokens, he]
  | negate operand =>
    have hoperand := mem_tokens_of_termNeeds operand hn
    simp [Term.tokens, hoperand]
  | invert operand =>
    have hoperand := mem_tokens_of_termNeeds operand hn
    simp [Term.tokens, hoperand]
  | _ => simp [Term.needs] at hn

theorem mem_tokens_of_exprNeeds (e : Expr) (hn : .variable name ∈ e.needs) :
    .identifier name ∈ e.tokens := by
  obtain ⟨first, others⟩ := e
  rw [Expr.tokens, List.mem_append]
  rcases List.mem_append.1 hn with hn | hn
  · exact .inl (mem_tokens_of_termNeeds first hn)
  · exact .inr (mem_tokens_of_chainNeeds others hn)

theorem mem_tokens_of_chainNeeds (c : Chain) (hn : .variable name ∈ c.needs) :
    .identifier name ∈ c.tokens := by
  cases c with
  | nil => cases hn
  | cons operator operand others =>
    rw [Chain.tokens, List.mem_cons, List.mem_append]
    rcases List.mem_append.1 hn with hn | hn
    · exact .inr (.inl (mem_tokens_of_termNeeds operand hn))
    · exact .inr (.inr (mem_tokens_of_chainNeeds others hn))

theorem mem_tokens_of_argumentsNeeds (es : List Expr) (hn : .variable name ∈ argumentsNeeds es) :
    .identifier name ∈ argumentsTokens es := by
  cases es with
  | nil => cases hn
  | cons e es =>
    rw [argumentsTokens, List.mem_append]
    rcases List.mem_append.1 hn with hn | hn
    · exact .inl (mem_tokens_of_exprNeeds e hn)
    · exact .inr (mem_moreTokens_of_argumentsNeeds es hn)

theorem mem_moreTokens_of_argumentsNeeds (es : List Expr)
    (hn : .variable name ∈ argumentsNeeds es) : .identifier name ∈ moreTokens es := by
  cases es with
  | nil => cases hn
  | cons e es =>
    rw [moreTokens, List.mem_cons, List.mem_append]
    rcases List.mem_append.1 hn with hn | hn
    · exact .inr (.inl (mem_tokens_of_exprNeeds e hn))
    · exact .inr (.inr (mem_moreTokens_of_argumentsNeeds es hn))

end

mutual

theorem mem_tokens_of_stmtNeeds (s : Stmt) (hn : .variable name ∈ s.needs) :
    .identifier name ∈ s.tokens := by
  have hexpr (e : Expr) (hn : .variable name ∈ e.needs) : .identifier name ∈ e.tokens :=
    mem_tokens_of_exprNeeds e hn
  cases s with
  | assign other value =>
    have hvalue := hexpr value
    simp only [Stmt.needs, List.mem_cons, Need.variable.injEq] at hn
    rcases hn with rfl | hn
    · simp [Stmt.tokens]
    · simp [Stmt.tokens, hvalue hn]
  | assignElement array index value =>
    simp only [Stmt.needs, List.mem_cons, List.mem_append, Need.variable.injEq] at hn
    rcases hn with rfl | hn | hn
    · simp [Stmt.tokens]
    · simp [Stmt.tokens, hexpr index hn]
    · simp [Stmt.tokens, hexpr value hn]
  | ifThen condition body =>
    rcases List.mem_append.1 hn with hn | hn
    · simp [Stmt.tokens, hexpr condition hn]
    · simp [Stmt.tokens, braced, mem_tokens_of_statementsNeeds body hn]
  | ifElse condition body alternative =>
    simp only [Stmt.needs, List.mem_append] at hn
    rcases hn with hn | hn | hn
    · simp [Stmt.tokens, hexpr condition hn]
    · simp [Stmt.tokens, braced, mem_tokens_of_statementsNeeds body hn]
    · simp [Stmt.tokens, braced, mem_tokens_of_statementsNeeds alternative hn]
  | «while» condition body =>
    rcases List.mem_append.1 hn with hn | hn
    · simp [Stmt.tokens, hexpr condition hn]
    · simp [Stmt.tokens, braced, mem_tokens_of_statementsNeeds body hn]
  | call callee arguments =>
    have harguments (hn : .variable name ∈ argumentsNeeds arguments) :
        .identifier name ∈ argumentsTokens arguments := mem_tokens_of_argumentsNeeds arguments hn
    cases callee <;> simp_all [Stmt.needs, Stmt.tokens, Callee.needs]
  | «return» value =>
    cases value with
    | none => cases hn
    | some e =>
      simp only [Stmt.needs, List.mem_cons, reduceCtorEq, false_or] at hn
      simp [Stmt.tokens, hexpr e hn]

/-- A name that statements need stands in their tokens. -/
theorem mem_tokens_of_statementsNeeds (ss : List Stmt)
    (hn : .variable name ∈ statementsNeeds ss) : .identifier name ∈ statementsTokens ss := by
  cases ss with
  | nil => cases hn
  | cons s ss =>
    rw [statementsTokens, List.mem_append]
    rcases List.mem_append.1 hn with hn | hn
    · exact .inl (mem_tokens_of_stmtNeeds s hn)
    · exact .inr (mem_tokens_of_statementsNeeds ss hn)

end

end spelled

end JackToolchain.Jack
