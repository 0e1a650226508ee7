import JackToolchain.Proofs.Jack.Segments

/-!
# The current object

Code reaches the current object through `pointer 0` and its fields through `this`. A source text
does so with the word `this`, with a call that has no receiver and with the name of a field.
The compiler asks for an object where the word stands, and nowhere else, so a function that has
none can still reach the object of its caller.

* `Use`: what in a source text may reach the object.
* `any_usesObject_statements`: statements reach it in their code exactly if they do in the source.
* `Cls.IsField`: which names mean fields in a subroutine.
* `compile_function_object`: **a function reaches an object exactly if it has a call without a
  receiver or the name of a field**, and the word `this` is rejected in it.
* `function_reaches_object`: a function that does.
-/

namespace JackToolchain.Vm

/-- Whether an instruction reads or sets the current object or one of its fields. -/
def Instruction.usesObject : Instruction → Bool
  | .push .this _ | .pop .this _ | .push .pointer 0 | .pop .pointer 0 => true
  | _ => false

end JackToolchain.Vm

namespace JackToolchain.Jack

open Grammar Vm Files

namespace Grammar

/-- What in a tree may reach the current object: a name, the word `this`, and a call without a
receiver. -/
inductive Use where
  | named (name : String)
  | this
  | call

/-- Whether it does in a subroutine. The word `this` asks for an object, and a call without a
receiver takes whatever is there. -/
def Use.ofObject (h : Header) : Use → Bool
  | .named name => (h.scope.find? name).any (·.kind = .field)
  | .this => h.hasObject
  | .call => true

/-- The uses in what stands before the arguments of a call. -/
def Callee.uses : Callee → List Use
  | .bare _ => [.call]
  | .member head _ => [.named head]
  | .this _ => [.this]

mutual

/-- The uses in a term. -/
def Term.uses : Term → List Use
  | .integer _ | .string _ | .true | .false | .null => []
  | .this => [.this]
  | .name name => [.named name]
  | .element array index => index.uses ++ [.named array]
  | .call callee arguments => callee.uses ++ argumentsUses arguments
  | .enclosed e => e.uses
  | .negate operand => operand.uses
  | .invert operand => operand.uses

/-- The uses in an expression. -/
def Expr.uses : Expr → List Use
  | .mk first others => first.uses ++ others.uses

/-- The uses in the terms behind operators. -/
def Chain.uses : Chain → List Use
  | .nil => []
  | .cons _ operand others => operand.uses ++ others.uses

/-- The uses in arguments. -/
def argumentsUses : List Expr → List Use
  | [] => []
  | e :: es => e.uses ++ argumentsUses es

end

mutual

/-- The uses in a statement. -/
def Stmt.uses : Stmt → List Use
  | .assign name value => value.uses ++ [.named name]
  | .assignElement array index value => index.uses ++ [.named array] ++ value.uses
  | .ifThen condition body => condition.uses ++ statementsUses body
  | .ifElse condition body alternative =>
    condition.uses ++ statementsUses body ++ statementsUses alternative
  | .while condition body => condition.uses ++ statementsUses body
  | .call callee arguments => callee.uses ++ argumentsUses arguments
  | .return none => []
  | .return (some value) => value.uses

/-- The uses in statements. -/
def statementsUses : List Stmt → List Use
  | [] => []
  | s :: ss => s.uses ++ statementsUses ss

end

/-- Whether a name means a field in a subroutine: the class declares it as one, and the
subroutine declares nothing of that name. -/
def Cls.IsField (c : Cls) (s : Sub) (name : String) : Prop :=
  name ∉ s.names ∧ ∃ d ∈ c.declarations, d.kind = .field ∧ name ∈ d.names

end Grammar

variable {className : String} {scope : Scope} {h : Header} {c : Cls} {s : Sub} {name : String}

/-! ## Expressions -/

@[simp] theorem usesObject_push (v : Variable) : v.push.usesObject = decide (v.kind = .field) := by
  cases hk : v.kind <;> simp [Variable.push, hk, Kind.segment, Instruction.usesObject]

@[simp] theorem usesObject_pop (v : Variable) : v.pop.usesObject = decide (v.kind = .field) := by
  cases hk : v.kind <;> simp [Variable.pop, hk, Kind.segment, Instruction.usesObject]

@[simp] theorem usesObject_operator (operator : BinaryOperator) :
    operator.instruction.usesObject = false := by
  cases operator <;> rfl

theorem any_usesObject_string (value : String) :
    (stringCode value).any Instruction.usesObject = false := by
  simp [stringCode, Instruction.usesObject]

/-- The receiver of a call is the object, a variable or nothing. -/
theorem any_usesObject_receiver {callee : Callee} {target : Target}
    (hc : callee.resolve h = some (target, name)) :
    target.receiver.any Instruction.usesObject = callee.uses.any (Use.ofObject h) := by
  cases callee with
  | bare other =>
    cases hc
    rfl
  | member head other =>
    rw [Callee.resolve] at hc
    split at hc
    · next hv =>
      cases hc
      simp [Target.receiver, Callee.uses, Use.ofObject, hv]
    · next hv =>
      cases hc
      simp [Target.receiver, Callee.uses, Use.ofObject, hv]
  | this other =>
    rw [Callee.resolve] at hc
    split at hc
    · next ho =>
      cases hc
      simp [Target.receiver, Callee.uses, Use.ofObject, ho, Instruction.usesObject]
    · cases hc

theorem any_usesObject_call {callee : Callee} {target : Target} {args : List Expr}
    {es : List Expression} (hc : callee.resolve h = some (target, name))
    (ha : (argumentsCode className es).any Instruction.usesObject =
      (argumentsUses args).any (Use.ofObject h)) :
    (callCode className target name es).any Instruction.usesObject =
      (callee.uses ++ argumentsUses args).any (Use.ofObject h) := by
  rw [callCode, Expression.code, List.any_append, List.any_append, List.any_append, ha,
    any_usesObject_receiver hc]
  exact Bool.or_false _

mutual

/-- A term reaches the object in its code exactly if it does in the source. -/
theorem any_usesObject_term (t : Term) {e : Expression} (ht : t.tree? h = some e) :
    (e.code className).any Instruction.usesObject = t.uses.any (Use.ofObject h) := by
  cases t with
  | integer _ | «true» | «false» | null =>
    cases ht
    rfl
  | string value =>
    rw [Term.tree?] at ht
    split at ht
    · cases ht
      exact any_usesObject_string value
    · cases ht
  | this =>
    rw [Term.tree?] at ht
    split at ht
    · next ho =>
      cases ht
      simp [Expression.code, Term.uses, Use.ofObject, ho, Instruction.usesObject]
    · cases ht
  | name name =>
    obtain ⟨v, hv, heq⟩ := Option.bind_eq_some_iff.1 ht
    cases heq
    simp [Expression.code, Term.uses, Use.ofObject, hv]
  | element array index =>
    obtain ⟨v, hv, hrest⟩ := Option.bind_eq_some_iff.1 ht
    obtain ⟨x, hx, heq⟩ := Option.bind_eq_some_iff.1 hrest
    cases heq
    have hread : [.operate .add, .pop .pointer 1, .push .that 0].any Instruction.usesObject =
        false := rfl
    rw [Expression.code, Term.uses, List.any_append, List.any_append, List.any_cons, hread,
      any_usesObject_expr index hx]
    simp [Use.ofObject, hv]
  | call callee arguments =>
    obtain ⟨⟨target, name⟩, hc, hrest⟩ := Option.bind_eq_some_iff.1 ht
    obtain ⟨vs, ha, heq⟩ := Option.bind_eq_some_iff.1 hrest
    cases heq
    exact any_usesObject_call hc (any_usesObject_arguments arguments ha)
  | enclosed inner => exact any_usesObject_expr inner ht
  | negate operand =>
    obtain ⟨x, hx, heq⟩ := Option.bind_eq_some_iff.1 ht
    cases heq
    simp [Expression.code, Term.uses, any_usesObject_term operand hx, Instruction.usesObject]
  | invert operand =>
    obtain ⟨x, hx, heq⟩ := Option.bind_eq_some_iff.1 ht
    cases heq
    simp [Expression.code, Term.uses, any_usesObject_term operand hx, Instruction.usesObject]

theorem any_usesObject_expr (t : Expr) {e : Expression} (ht : t.tree? h = some e) :
    (e.code className).any Instruction.usesObject = t.uses.any (Use.ofObject h) := by
  obtain ⟨first, others⟩ := t
  obtain ⟨left, hleft, hrest⟩ := Option.bind_eq_some_iff.1 ht
  rw [any_usesObject_chain others hrest, any_usesObject_term first hleft, Expr.uses,
    List.any_append]

theorem any_usesObject_chain (t : Chain) {left e : Expression} (ht : t.tree? h left = some e) :
    (e.code className).any Instruction.usesObject =
      ((left.code className).any Instruction.usesObject || t.uses.any (Use.ofObject h)) := by
  cases t with
  | nil =>
    cases ht
    exact (Bool.or_false _).symm
  | cons operator operand others =>
    obtain ⟨right, hright, hrest⟩ := Option.bind_eq_some_iff.1 ht
    rw [any_usesObject_chain others hrest, Chain.uses, List.any_append]
    simp [Expression.code, any_usesObject_term operand hright, Bool.or_assoc]

theorem any_usesObject_arguments (args : List Expr) {es : List Expression}
    (ha : argumentsTree? h args = some es) :
    (argumentsCode className es).any Instruction.usesObject =
      (argumentsUses args).any (Use.ofObject h) := by
  cases args with
  | nil =>
    cases ha
    rfl
  | cons arg args =>
    obtain ⟨first, hfirst, hrest⟩ := Option.bind_eq_some_iff.1 ha
    obtain ⟨others, hothers, heq⟩ := Option.bind_eq_some_iff.1 hrest
    cases heq
    rw [argumentsCode, argumentsUses, List.any_append, List.any_append,
      any_usesObject_expr arg hfirst, any_usesObject_arguments args hothers]

end

/-! ## Statements -/

mutual

theorem any_usesObject_stmt (t : Stmt) {s : Statement} (ht : t.tree? h = some s) (l : Labels) :
    (s.code className l).1.any Instruction.usesObject = t.uses.any (Use.ofObject h) := by
  cases t with
  | assign name value =>
    obtain ⟨v, hv, hrest⟩ := Option.bind_eq_some_iff.1 ht
    obtain ⟨x, hx, heq⟩ := Option.bind_eq_some_iff.1 hrest
    cases heq
    simp [Statement.code, Stmt.uses, Use.ofObject, hv, any_usesObject_expr value hx]
  | assignElement array index value =>
    obtain ⟨v, hv, hrest⟩ := Option.bind_eq_some_iff.1 ht
    obtain ⟨x, hx, hrest'⟩ := Option.bind_eq_some_iff.1 hrest
    obtain ⟨y, hy, heq⟩ := Option.bind_eq_some_iff.1 hrest'
    cases heq
    have hwrite : [.pop .temp 0, .pop .pointer 1, .push .temp 0, .pop .that 0].any
        Instruction.usesObject = false := rfl
    have hadd : [v.push, .operate .add].any Instruction.usesObject =
        [Use.named array].any (Use.ofObject h) := by
      rw [List.any_cons, usesObject_push]
      simp [Use.ofObject, hv, Instruction.usesObject]
    simp only [Statement.code, Stmt.uses, List.any_append, any_usesObject_expr index hx,
      any_usesObject_expr value hy, hadd, hwrite, Bool.or_false]
  | ifThen condition body =>
    obtain ⟨x, hx, hrest⟩ := Option.bind_eq_some_iff.1 ht
    obtain ⟨b, hb, heq⟩ := Option.bind_eq_some_iff.1 hrest
    cases heq
    simp [Statement.code, Stmt.uses, any_usesObject_expr condition hx,
      any_usesObject_statements body hb, Instruction.usesObject]
  | ifElse condition body alternative =>
    obtain ⟨x, hx, hrest⟩ := Option.bind_eq_some_iff.1 ht
    obtain ⟨b, hb, hrest'⟩ := Option.bind_eq_some_iff.1 hrest
    obtain ⟨a, ha, heq⟩ := Option.bind_eq_some_iff.1 hrest'
    cases heq
    simp [Statement.code, Stmt.uses, any_usesObject_expr condition hx,
      any_usesObject_statements body hb, any_usesObject_statements alternative ha,
      Instruction.usesObject]
  | «while» condition body =>
    obtain ⟨x, hx, hrest⟩ := Option.bind_eq_some_iff.1 ht
    obtain ⟨b, hb, heq⟩ := Option.bind_eq_some_iff.1 hrest
    cases heq
    simp [Statement.code, Stmt.uses, any_usesObject_expr condition hx,
      any_usesObject_statements body hb, Instruction.usesObject]
  | call callee arguments =>
    obtain ⟨⟨target, name⟩, hc, hrest⟩ := Option.bind_eq_some_iff.1 ht
    obtain ⟨vs, ha, heq⟩ := Option.bind_eq_some_iff.1 hrest
    cases heq
    have harguments : (argumentsCode className vs).any Instruction.usesObject =
        (argumentsUses arguments).any (Use.ofObject h) := any_usesObject_arguments arguments ha
    rw [Statement.code, List.any_append, any_usesObject_call hc harguments]
    exact Bool.or_false _
  | «return» value =>
    cases value with
    | none =>
      cases ht
      rfl
    | some t =>
      rw [Stmt.tree?] at ht
      split at ht
      · cases ht
      · obtain ⟨x, hx, heq⟩ := Option.bind_eq_some_iff.1 ht
        cases heq
        simp [Statement.code, Stmt.uses, any_usesObject_expr t hx, Instruction.usesObject]

/-- **Statements reach the object in their code exactly if they do in the source**, in every
kind of subroutine. -/
theorem any_usesObject_statements (ts : List Stmt) {ss : List Statement}
    (ht : statementsTree? h ts = some ss) (l : Labels) :
    (statementsCode className l ss).1.any Instruction.usesObject =
      (statementsUses ts).any (Use.ofObject h) := by
  cases ts with
  | nil =>
    cases ht
    rfl
  | cons t ts =>
    obtain ⟨first, hfirst, hrest⟩ := Option.bind_eq_some_iff.1 ht
    obtain ⟨others, hothers, heq⟩ := Option.bind_eq_some_iff.1 hrest
    cases heq
    rw [statementsCode, statementsUses, List.any_append, List.any_append,
      any_usesObject_stmt t hfirst, any_usesObject_statements ts hothers]

end

/-! ## Names of fields -/

section entries

variable {es : List VarEntry} {e : VarEntry}

theorem find?_entry_eq_none_iff :
    es.find? (·.name = name) = none ↔ name ∉ es.map VarEntry.name := by
  simp

end entries

theorem entries_scope? (hscope : c.scope? = some scope) :
    scope.classLevel.map Variable.entry = c.declarations.flatMap VarDec.entries :=
  entries_declared? (fun _ he => isClassLevel_of_mem_classEntries c he) hscope

/-- A name is looked up among the declarations of the subroutine and then those of the class. -/
theorem ofObject_named (hscope : c.scope? = some scope)
    (hh : s.header? c.name scope = some h) : Use.ofObject h (.named name) =
      (((s.entries c.name).find? (·.name = name)).or
        ((c.declarations.flatMap VarDec.entries).find? (·.name = name))).any (·.kind = .field) := by
  obtain ⟨scope', hdeclared, rfl⟩ := header?_eq_some_iff.1 hh
  have hentries : ∀ e ∈ s.entries c.name, e.kind.isClassLevel = Kind.isClassLevel .local :=
    fun e he => isClassLevel_of_mem_entries s he
  have hlocal : scope'.subroutineLevel.map Variable.entry = s.entries c.name :=
    entries_declared? hentries hdeclared
  -- the subroutine declares on its own level, so that of the class is as it was
  have hlevel : scope'.level .static = scope.leaveSubroutine.level .static :=
    level_declared?_of_ne hentries (by decide) hdeclared
  have hclass : scope'.classLevel = scope.classLevel := hlevel
  rw [← hlocal, ← entries_scope? hscope, ← hclass, ← List.find?_append, ← List.map_append,
    List.find?_map, Option.any_map, List.find?_append]
  rfl

/-- In a function, the names of fields are those that the class declares as such and the
function does not declare. -/
theorem ofObject_named_iff (hscope : c.scope? = some scope)
    (hh : s.header? c.name scope = some h) (hkind : s.kind = .function) :
    Use.ofObject h (.named name) = true ↔ c.IsField s name := by
  have hnames : (s.entries c.name).map VarEntry.name = s.names := by
    rw [map_name_subEntries, hkind]
    rfl
  have hnodup : ((c.declarations.flatMap VarDec.entries).map VarEntry.name).Nodup := by
    rw [map_name_entries]
    exact (isSome_scope?_iff c).1 (by rw [hscope]; rfl)
  rw [ofObject_named hscope hh, Option.any_eq_true]
  simp only [Option.or_eq_some_iff, find?_entry_eq_none_iff, hnames,
    find?_key_eq_some_iff hnodup, decide_eq_true_eq]
  constructor
  · rintro ⟨e, hfind | ⟨hhidden, he, rfl⟩, hfield⟩
    · -- a subroutine declares no field
      have hlevel := isClassLevel_of_mem_entries s (List.mem_of_find?_eq_some hfind)
      rw [hfield] at hlevel
      cases hlevel
    · obtain ⟨d, hd, he⟩ := List.mem_flatMap.1 he
      obtain ⟨name, hname, rfl⟩ := List.mem_map.1 he
      exact ⟨hhidden, d, hd, hfield, hname⟩
  · rintro ⟨hhidden, d, hd, hfield, hname⟩
    refine ⟨⟨name, d.type.text, d.kind⟩, .inr ⟨hhidden, ?_, rfl⟩, hfield⟩
    exact List.mem_flatMap.2 ⟨d, hd, List.mem_map.2 ⟨name, hname, rfl⟩⟩

/-! ## Functions -/

theorem hasObject_of_function (hh : s.header? className scope = some h)
    (hkind : s.kind = .function) : h.hasObject = false := by
  obtain ⟨scope', -, rfl⟩ := header?_eq_some_iff.1 hh
  simp [Header.hasObject, hkind]

/-- The word `this` is rejected in a function. -/
theorem object_not_mem_needs {sub : Subroutine} (hs : s.tree? className scope = some sub)
    (hkind : s.kind = .function) : .object ∉ statementsNeeds s.body := by
  intro hneed
  obtain ⟨h, hh, body, hbody, -⟩ := subTree?_eq_some_iff.1 hs
  have hmet : ∀ n ∈ statementsNeeds s.body, n.MetIn h :=
    (isSome_statementsTree?_iff s.body).1 (by rw [hbody]; rfl)
  have hobject : h.hasObject = true := hmet _ hneed
  rw [hasObject_of_function hh hkind] at hobject
  cases hobject

/-- The code of a function reaches an object exactly if its statements do. -/
theorem any_usesObject_function {sub : Subroutine} (hscope : c.scope? = some scope)
    (hs : s.tree? c.name scope = some sub) (hkind : s.kind = .function) :
    sub.code.any Instruction.usesObject =
      (statementsUses s.body).any (Use.ofObject sub.toHeader) := by
  -- a function binds no object before its statements and returns 0 behind them
  have hprologue : s.prologue (counted (c.count .field)) = [] := by rw [Sub.prologue, hkind]
  have hepilogue : sub.epilogue.any Instruction.usesObject = false := by
    unfold Subroutine.epilogue
    split <;> rfl
  rw [code_eq_of_subTree? hscope hs, hprologue, List.nil_append, List.any_cons, List.any_append,
    hepilogue, Bool.or_false]
  obtain ⟨h, -, body, hbody, rfl⟩ := subTree?_eq_some_iff.1 hs
  exact any_usesObject_statements s.body hbody {}

/-- What the code of a function reaches an object for. -/
theorem function_usesObject_iff {sub : Subroutine} (hscope : c.scope? = some scope)
    (hs : s.tree? c.name scope = some sub) (hkind : s.kind = .function) :
    (∃ i ∈ sub.code, i.usesObject) ↔ .call ∈ statementsUses s.body ∨
      ∃ name, .named name ∈ statementsUses s.body ∧ c.IsField s name := by
  have hany := any_usesObject_function hscope hs hkind
  obtain ⟨h, hh, body, -, rfl⟩ := subTree?_eq_some_iff.1 hs
  have hobject := hasObject_of_function hh hkind
  rw [← List.any_eq_true, hany, List.any_eq_true]
  constructor
  · rintro ⟨u, hu, hreaches⟩
    cases u with
    | named name => exact .inr ⟨name, hu, (ofObject_named_iff hscope hh hkind).1 hreaches⟩
    | this =>
      have hword : h.hasObject = true := hreaches
      rw [hobject] at hword
      cases hword
    | call => exact .inl hu
  · rintro (hu | ⟨name, hu, hfield⟩)
    · exact ⟨.call, hu, rfl⟩
    · exact ⟨.named name, hu, (ofObject_named_iff hscope hh hkind).2 hfield⟩

/-- **A function reaches an object exactly if it has a call without a receiver or the name of a
field**: where a class compiles, no function has the word `this`, and a function without such
calls and names accesses neither `this` nor `pointer 0`. -/
theorem compile_function_object {source : Source} {p : Program} (hp : compile source = .ok p) :
    ∃ (c : Cls) (scope : Scope), c.SpelledBy source ∧ c.scope? = some scope ∧
      p = ⟨c.name, c.subroutines.flatMap (Sub.block c.name scope)⟩ ∧
      ∀ s ∈ c.subroutines, s.kind = .function →
        .object ∉ statementsNeeds s.body ∧
        ((∃ i ∈ s.block c.name scope, i.usesObject) ↔
          .call ∈ statementsUses s.body ∨
            ∃ name, .named name ∈ statementsUses s.body ∧ c.IsField s name) := by
  obtain ⟨c, scope, hsource, hscope, hprogram, hblocks⟩ := exists_blocks_of_compile hp
  refine ⟨c, scope, hsource, hscope, hprogram, fun s hs hkind => ?_⟩
  obtain ⟨sub, hsub, hblock⟩ := hblocks s hs
  rw [hblock]
  exact ⟨object_not_mem_needs hsub hkind, function_usesObject_iff hscope hsub hkind⟩

/-- A function with a parameter whose name hides a field. -/
theorem compile_function_object_hidden :
    let source : Source := ⟨"P.jack", "P",
      "class P \x7b static int n; field int x;
        function int f(int x) \x7b let n = x; return n; \x7d \x7d"⟩
    ∃ p, compile source = .ok p ∧ p.instructions.any Instruction.usesObject = false ∧
      ∃ (c : Cls) (scope : Scope), c.SpelledBy source ∧ c.scope? = some scope ∧
        p = ⟨c.name, c.subroutines.flatMap (Sub.block c.name scope)⟩ ∧
        ∀ s ∈ c.subroutines, s.kind = .function →
          .object ∉ statementsNeeds s.body ∧
          ((∃ i ∈ s.block c.name scope, i.usesObject) ↔
            .call ∈ statementsUses s.body ∨
              ∃ name, .named name ∈ statementsUses s.body ∧ c.IsField s name) := by
  intro source
  have hp : compile source = .ok ⟨"P", [.function "P.f" 0, .push .argument 0, .pop .static 0,
      .push .static 0, .return]⟩ := toOption_eq_some_iff.1 (by decide +kernel)
  exact ⟨_, hp, rfl, compile_function_object hp⟩

/-- **A function can reach the object of its caller**: nothing rejects a call without a receiver
in it. -/
theorem function_reaches_object :
    let source : Source := ⟨"Main.jack", "Main",
      "class Main \x7b method void g() \x7b return; \x7d " ++
        "function void f() \x7b do g(); return; \x7d \x7d"⟩
    let g : Sub := ⟨.method, none, "g", [], [], [.return none]⟩
    let f : Sub := ⟨.function, none, "f", [], [], [.call (.bare "g") [], .return none]⟩
    let c : Cls := ⟨"Main", [], [g, f]⟩
    c.SpelledBy source ∧ c.scope? = some {} ∧
      compile source = .ok ⟨"Main", c.subroutines.flatMap (Sub.block "Main" {})⟩ ∧
      f.block "Main" {} = [.function "Main.f" 0, .push .pointer 0, .call "Main.g" 1, .pop .temp 0,
        .push .constant 0, .return] ∧
      ∃ i ∈ f.block "Main" {}, i.usesObject := by
  intro source g f c
  have hsource : c.SpelledBy source := by
    dsimp only [Cls.SpelledBy, source, c, g, f]
    decide +kernel
  have hblock : f.block "Main" {} = [.function "Main.f" 0, .push .pointer 0, .call "Main.g" 1,
      .pop .temp 0, .push .constant 0, .return] := by decide +kernel
  refine ⟨hsource, rfl, ?_, hblock, ?_⟩
  · apply toOption_eq_some_iff.1
    dsimp only [source, c, g, f]
    decide +kernel
  · rw [hblock]
    decide

end JackToolchain.Jack
