import JackToolchain.Jack.Reading.Class
import JackToolchain.Proofs.Jack.Grammar

/-!
# The grammar of classes

* `Grammar.Cls`, `Grammar.Sub`: the trees of a class and of a subroutine, down to those of
  statements.
* `Cls.tokens`, `Sub.tokens`: the tokens that a tree is spelled with.
* `Cls.tree?`, `Sub.tree?`: what a tree means, if no name is declared twice on a level and
  the statements mean something.
-/

namespace JackToolchain.Jack

/-- The keyword that starts a kind of subroutine. -/
def SubroutineKind.keyword : SubroutineKind → Keyword
  | .constructor => .constructor
  | .function => .function
  | .method => .method

theorem SubroutineKind.ofKeyword?_eq_some_iff {k : Keyword} {kind : SubroutineKind} :
    ofKeyword? k = some kind ↔ k = kind.keyword := by
  constructor
  · intro h
    cases k <;> cases h <;> rfl
  · rintro rfl
    cases kind <;> rfl

namespace Grammar

/-- The type of a variable. -/
inductive TypeName where
  | int | char | boolean
  | named (name : String)

/-- A name declared as a variable of a type and a kind. -/
structure VarEntry where
  name : String
  type : String
  kind : Kind

/-- Variables of one type, declared behind a keyword that says their kind. -/
structure VarDec (kindOf? : Keyword → Option Kind) where
  keyword : Keyword
  kind : Kind
  starts : kindOf? keyword = some kind
  type : TypeName
  first : String
  others : List String

/-- A parameter. -/
structure Parameter where
  type : TypeName
  name : String

/-- A subroutine. One without a type of result is `void`. -/
structure Sub where
  kind : SubroutineKind
  result : Option TypeName
  name : String
  parameters : List Parameter
  declarations : List (VarDec localKind?)
  body : List Stmt

/-- A class. -/
structure Cls where
  name : String
  declarations : List (VarDec classKind?)
  subroutines : List Sub

/-! ## Spelling -/

/-- The token of a type. -/
def TypeName.token : TypeName → Token
  | .int => .keyword .int
  | .char => .keyword .char
  | .boolean => .keyword .boolean
  | .named name => .identifier name

/-- Items with commas between them. -/
def commaSeparated {α : Type} (tokens : α → List Token) : List α → List Token
  | [] => []
  | [a] => tokens a
  | a :: b :: others => tokens a ++ .symbol .comma :: commaSeparated tokens (b :: others)

/-- The names that a declaration declares. -/
def VarDec.names {kindOf? : Keyword → Option Kind} (d : VarDec kindOf?) : List String :=
  d.first :: d.others

/-- The tokens of a declaration. -/
def VarDec.tokens {kindOf? : Keyword → Option Kind} (d : VarDec kindOf?) : List Token :=
  .keyword d.keyword :: d.type.token ::
    (commaSeparated (fun name => [.identifier name]) d.names ++ [.symbol .semicolon])

/-- The tokens of a parameter. -/
def Parameter.tokens (p : Parameter) : List Token :=
  [p.type.token, .identifier p.name]

/-- The token of the type of a result. -/
def resultToken : Option TypeName → Token
  | none => .keyword .void
  | some type => type.token

/-- The tokens of a subroutine. -/
def Sub.tokens (s : Sub) : List Token :=
  .keyword s.kind.keyword :: resultToken s.result :: .identifier s.name :: .symbol .leftParen ::
    (commaSeparated Parameter.tokens s.parameters ++ .symbol .rightParen ::
      braced (s.declarations.flatMap VarDec.tokens ++ statementsTokens s.body))

/-- The tokens of a class. -/
def Cls.tokens (c : Cls) : List Token :=
  .keyword .class :: .identifier c.name ::
    braced (c.declarations.flatMap VarDec.tokens ++ c.subroutines.flatMap Sub.tokens)

/-! ## Meaning -/

/-- How a type is written. -/
def TypeName.text : TypeName → String
  | .int => "int"
  | .char => "char"
  | .boolean => "boolean"
  | .named name => name

/-- The variables that a declaration declares. -/
def VarDec.entries {kindOf? : Keyword → Option Kind} (d : VarDec kindOf?) : List VarEntry :=
  d.names.map fun name => ⟨name, d.type.text, d.kind⟩

/-- The variable that a parameter declares. -/
def Parameter.entry (p : Parameter) : VarEntry :=
  ⟨p.name, p.type.text, .argument⟩

/-- The object of a method, which is its first argument. -/
def objectEntries (className : String) : SubroutineKind → List VarEntry
  | .method => [⟨"this", className, .argument⟩]
  | _ => []

/-- A scope with more variables, unless a name is declared twice on a level. -/
def declared? (scope : Scope) (entries : List VarEntry) : Option Scope :=
  entries.foldlM (fun scope e => scope.define e.name e.type e.kind) scope

/-- The variables of a subroutine, in the order of their declarations. -/
def Sub.entries (className : String) (s : Sub) : List VarEntry :=
  objectEntries className s.kind ++ s.parameters.map Parameter.entry ++
    s.declarations.flatMap VarDec.entries

/-- What the declarations of a subroutine mean in a class. -/
def Sub.header? (className : String) (scope : Scope) (s : Sub) : Option Header := do
  let scope ← declared? scope.leaveSubroutine (s.entries className)
  return ⟨className, s.kind, s.result.isNone, s.name, scope⟩

/-- What a subroutine means in a class. -/
def Sub.tree? (className : String) (scope : Scope) (s : Sub) : Option Subroutine := do
  let header ← s.header? className scope
  return ⟨header, ← statementsTree? header s.body⟩

/-- What subroutines mean in a class. -/
def subroutinesTree? (className : String) (scope : Scope) : List Sub → Option (List Subroutine)
  | [] => some []
  | s :: ss => do return (← s.tree? className scope) :: (← subroutinesTree? className scope ss)

/-- What the declarations of a class mean. -/
def Cls.scope? (c : Cls) : Option Scope :=
  declared? {} (c.declarations.flatMap VarDec.entries)

/-- What a class means. -/
def Cls.tree? (c : Cls) : Option ClassDecl := do
  let scope ← c.scope?
  return ⟨c.name, scope, ← subroutinesTree? c.name scope c.subroutines⟩

theorem mem_commaSeparated {α : Type} {tokens : α → List Token} {token : Token} {a : α}
    {as : List α} (ha : a ∈ as) (ht : token ∈ tokens a) : token ∈ commaSeparated tokens as := by
  fun_induction commaSeparated tokens as with
  | case1 => cases ha
  | case2 b =>
    rw [← List.mem_singleton.1 ha]
    exact ht
  | case3 b c others ih =>
    rw [List.mem_append, List.mem_cons]
    rcases List.mem_cons.1 ha with rfl | ha
    · exact .inl ht
    · exact .inr (.inr (ih ha))

theorem eq_of_mem_objectEntries {className : String} {kind : SubroutineKind} {e : VarEntry}
    (he : e ∈ objectEntries className kind) : e = ⟨"this", className, .argument⟩ := by
  cases kind with
  | method => exact List.mem_singleton.1 he
  | _ => cases he

theorem declared?_cons (scope : Scope) (e : VarEntry) (es : List VarEntry) :
    declared? scope (e :: es) =
      (scope.define e.name e.type e.kind).bind fun scope => declared? scope es :=
  List.foldlM_cons ..

theorem declared?_append (scope : Scope) (before after : List VarEntry) :
    declared? scope (before ++ after) =
      (declared? scope before).bind fun scope => declared? scope after :=
  List.foldlM_append

theorem header?_eq_some_iff {className : String} {scope : Scope} {s : Sub} {h : Header} :
    s.header? className scope = some h ↔
      ∃ scope', declared? scope.leaveSubroutine (s.entries className) = some scope' ∧
        ⟨className, s.kind, s.result.isNone, s.name, scope'⟩ = h := by
  simp [Sub.header?, Option.bind_eq_some_iff]

theorem subTree?_eq_some_iff {className : String} {scope : Scope} {s : Sub} {sub : Subroutine} :
    s.tree? className scope = some sub ↔ ∃ h, s.header? className scope = some h ∧
      ∃ body, statementsTree? h s.body = some body ∧ ⟨h, body⟩ = sub := by
  simp [Sub.tree?, Option.bind_eq_some_iff]

/-- Subroutines mean something if each of them does. -/
theorem isSome_subroutinesTree? {className : String} {scope : Scope} {ss : List Sub} :
    (subroutinesTree? className scope ss).isSome ↔
      ∀ s ∈ ss, (s.tree? className scope).isSome := by
  induction ss with
  | nil => simp [subroutinesTree?]
  | cons s ss ih =>
    rw [List.forall_mem_cons, ← ih, subroutinesTree?]
    cases s.tree? className scope <;> cases subroutinesTree? className scope ss <;> simp

end Grammar

end JackToolchain.Jack
