import JackToolchain.Proofs.Jack.Derivation.StatementSoundness
import JackToolchain.Proofs.Jack.Reading.Class

/-!
# Classes are read by the grammar

Names behind a keyword and parameters are lists of one kind: items with commas between
them, each of which declares a variable.

* `ItemReader`, `ListReader`: what the readers of items and of their lists have in common.
* `variables?_tokens`, `header?_tokens`, `class?_tokens`: what is spelled is read as what it
  means.
* `variables_taken`, `header_taken`, `subroutines_taken`: what is taken is spelled.
* `class?_eq_some_iff`: **a class is read exactly where one is spelled that means something**.
-/

namespace JackToolchain.Jack

open Grammar

variable {ls ts r : List Lexeme} {scope scope' : Scope}

/-! ## Types -/

theorem variableType?_eq_some_iff {token : Token} {type : String} :
    variableType? token = some type ↔ ∃ t : TypeName, token = t.token ∧ type = t.text := by
  constructor
  · intro h
    unfold variableType? at h
    split at h <;> cases h
    · exact ⟨.int, rfl, rfl⟩
    · exact ⟨.char, rfl, rfl⟩
    · exact ⟨.boolean, rfl, rfl⟩
    · exact ⟨.named type, rfl, rfl⟩
  · rintro ⟨t, rfl, rfl⟩
    cases t <;> rfl

theorem returnsVoid?_eq_some_iff {token : Token} {isVoid : Bool} :
    returnsVoid? token = some isVoid ↔
      ∃ result : Option TypeName, token = resultToken result ∧ isVoid = result.isNone := by
  constructor
  · intro h
    unfold returnsVoid? at h
    split at h
    · cases h
      exact ⟨none, rfl, rfl⟩
    · obtain ⟨type, htype, rfl⟩ := Option.map_eq_some_iff.1 h
      obtain ⟨t, rfl, -⟩ := variableType?_eq_some_iff.1 htype
      exact ⟨some t, rfl, rfl⟩
  · rintro ⟨_ | t, rfl, rfl⟩
    · rfl
    · cases t <;> rfl

theorem accepted?_eq_some_iff {α : Type} {value? : Token → Option α} {a : α} :
    accepted? value? ts = some (a, r) ↔
      ∃ token offset, ts = ⟨token, offset⟩ :: r ∧ value? token = some a := by
  cases ts with
  | nil => simp [accepted?]
  | cons l ts =>
    obtain ⟨token, offset⟩ := l
    simp only [accepted?, Option.map_eq_some_iff, Prod.mk.injEq, List.cons.injEq,
      Lexeme.mk.injEq]
    constructor
    · rintro ⟨_, hv, rfl, rfl⟩
      exact ⟨token, offset, ⟨⟨rfl, rfl⟩, rfl⟩, hv⟩
    · rintro ⟨_, _, ⟨⟨rfl, rfl⟩, rfl⟩, hv⟩
      exact ⟨a, hv, rfl, rfl⟩

/-! ## Lists of items that declare variables -/

section list

variable {α : Type} {item? : List Lexeme → Option (VarEntry × List Lexeme)}
  {tokens : α → List Token} {entry : α → VarEntry} {close : Punctuation}
  {list? : Scope → List Lexeme → Option (Scope × List Lexeme)}

/-- A reader of items takes exactly the spelled ones. -/
structure ItemReader (item? : List Lexeme → Option (VarEntry × List Lexeme))
    (tokens : α → List Token) (entry : α → VarEntry) : Prop where
  complete : ∀ a ls r, ls.map Lexeme.token = tokens a → item? (ls ++ r) = some (entry a, r)
  sound : ∀ ts e r, item? ts = some (e, r) →
    ∃ a ls, ts = ls ++ r ∧ ls.map Lexeme.token = tokens a ∧ e = entry a

/-- A reader of a list goes on behind a comma, and else takes the symbol that closes the
list. -/
structure ListReader (item? : List Lexeme → Option (VarEntry × List Lexeme)) (close : Punctuation)
    (list? : Scope → List Lexeme → Option (Scope × List Lexeme)) : Prop where
  close_ne_comma : close ≠ .comma
  equation : ∀ scope ts, list? scope ts = (item? ts).bind fun (e, r) =>
    (scope.define e.name e.type e.kind).bind fun scope =>
      if frontSymbol? r = some .comma then (behind? .comma r).bind (list? scope)
      else (behind? close r).bind fun r => some (scope, r)

/-- A spelled list declares its items, if none is declared twice. -/
theorem ListReader.complete (hlist : ListReader item? close list?)
    (hitem : ItemReader item? tokens entry) (scope : Scope) (a : α) (as : List α)
    (r : List Lexeme) (hl : ls.map Lexeme.token =
      commaSeparated tokens (a :: as) ++ [Token.symbol close]) : list? scope (ls ++ r) =
      (declared? scope ((a :: as).map entry)).map fun scope => (scope, r) := by
  induction as generalizing a ls scope with
  | nil =>
    obtain ⟨ls₁, ls₂, rfl, hl₁, hl₂⟩ := spelled_append hl
    obtain ⟨o, rfl⟩ := spelled_singleton hl₂
    -- the reader looks for a comma before it takes the symbol that closes the list
    have hne : frontSymbol? (⟨.symbol close, o⟩ :: r) ≠ some .comma := by
      intro hf
      exact hlist.close_ne_comma (Option.some.inj hf)
    rw [List.append_assoc, List.singleton_append, hlist.equation, hitem.complete a ls₁ _ hl₁,
      List.map_singleton, declared?_cons]
    simp only [Option.bind_some, if_neg hne, behind?_cons]
    cases scope.define (entry a).name (entry a).type (entry a).kind <;> rfl
  | cons b bs ih =>
    rw [commaSeparated, List.append_assoc] at hl
    obtain ⟨ls₁, ls₂, rfl, hl₁, hl₂⟩ := spelled_append hl
    obtain ⟨o, ls₃, rfl, hl₃⟩ := spelled_cons hl₂
    have hcomma : frontSymbol? (⟨.symbol .comma, o⟩ :: (ls₃ ++ r)) = some .comma := rfl
    rw [List.append_assoc, List.cons_append, hlist.equation, hitem.complete a ls₁ _ hl₁,
      List.map_cons, declared?_cons]
    simp only [Option.bind_some, if_pos hcomma, behind?_cons]
    cases scope.define (entry a).name (entry a).type (entry a).kind with
    | none => rfl
    | some scope => exact ih scope b hl₃

/-- What is taken as a list is spelled as one. -/
theorem ListReader.sound (hlist : ListReader item? close list?)
    (hitem : ItemReader item? tokens entry) (hr : list? scope ts = some (scope', r)) :
    ∃ a as ls, ts = ls ++ r ∧
      ls.map Lexeme.token = commaSeparated tokens (a :: as) ++ [Token.symbol close] ∧
      declared? scope ((a :: as).map entry) = some scope' := by
  induction hn : ts.length using Nat.strongRecOn generalizing ts scope with
  | _ n ih =>
    subst hn
    rw [hlist.equation] at hr
    obtain ⟨⟨e, r₁⟩, he, hrest⟩ := Option.bind_eq_some_iff.1 hr
    obtain ⟨scope₁, hdefine, hlast⟩ := Option.bind_eq_some_iff.1 hrest
    obtain ⟨a, ls₁, rfl, hl₁, rfl⟩ := hitem.sound _ _ _ he
    -- behind a comma the list goes on with fewer tokens, and else it ends
    split at hlast
    · obtain ⟨r₂, hcomma, hmore⟩ := Option.bind_eq_some_iff.1 hlast
      obtain ⟨o, rfl⟩ := behind?_eq_some_iff.1 hcomma
      have hlen : r₂.length < (ls₁ ++ ⟨.symbol .comma, o⟩ :: r₂).length := by
        rw [List.length_append, List.length_cons]
        omega
      obtain ⟨b, bs, ls₂, rfl, hl₂, hdeclared⟩ := ih _ hlen hmore rfl
      refine ⟨a, b :: bs, ls₁ ++ ⟨.symbol .comma, o⟩ :: ls₂, by simp, ?_, ?_⟩
      · simp [commaSeparated, hl₁, hl₂]
      · rw [List.map_cons, declared?_cons, hdefine]
        exact hdeclared
    · obtain ⟨r₂, hclose, hend⟩ := Option.bind_eq_some_iff.1 hlast
      obtain ⟨o, rfl⟩ := behind?_eq_some_iff.1 hclose
      cases hend
      refine ⟨a, [], ls₁ ++ [⟨.symbol close, o⟩], by simp, by simp [commaSeparated, hl₁], ?_⟩
      rw [List.map_singleton, declared?_cons, hdefine]
      rfl

end list

/-- What a name behind a keyword declares. -/
def nameItem? (type : String) (kind : Kind) (ts : List Lexeme) :
    Option (VarEntry × List Lexeme) :=
  (name? ts).map fun (name, r) => (⟨name.text, type, kind⟩, r)

/-- What a parameter declares. -/
def parameterItem? (ts : List Lexeme) : Option (VarEntry × List Lexeme) :=
  (accepted? variableType? ts).bind fun (type, r₁) =>
    (name? r₁).map fun (name, r₂) => (⟨name.text, type, .argument⟩, r₂)

theorem itemReader_names (type : String) (kind : Kind) :
    ItemReader (nameItem? type kind) (fun name => [.identifier name])
      (fun name => ⟨name, type, kind⟩) := by
  constructor
  · intro name ls r hl
    obtain ⟨o, rfl⟩ := spelled_singleton hl
    rfl
  · intro ts e r he
    obtain ⟨⟨name, r'⟩, hname, heq⟩ := Option.map_eq_some_iff.1 he
    obtain rfl := name?_eq_some_iff.1 hname
    cases heq
    exact ⟨name.text, [_], rfl, rfl, rfl⟩

theorem listReader_names (type : String) (kind : Kind) :
    ListReader (nameItem? type kind) .semicolon (names? type kind) := by
  refine ⟨by decide, fun scope ts => ?_⟩
  rw [names?_eq, nameItem?]
  cases name? ts <;> rfl

theorem itemReader_parameters :
    ItemReader parameterItem? Parameter.tokens Parameter.entry := by
  constructor
  · intro p ls r hl
    obtain ⟨o₁, ls₁, rfl, hl₁⟩ := spelled_cons hl
    obtain ⟨o₂, rfl⟩ := spelled_singleton hl₁
    have htype : variableType? p.type.token = some p.type.text :=
      variableType?_eq_some_iff.2 ⟨p.type, rfl, rfl⟩
    simp [parameterItem?, accepted?, htype, name?, Parameter.entry]
  · intro ts e r he
    obtain ⟨⟨type, r₁⟩, htype, hrest⟩ := Option.bind_eq_some_iff.1 he
    obtain ⟨⟨name, r₂⟩, hname, heq⟩ := Option.map_eq_some_iff.1 hrest
    obtain ⟨token, o, rfl, htoken⟩ := accepted?_eq_some_iff.1 htype
    obtain rfl := name?_eq_some_iff.1 hname
    obtain ⟨t, rfl, rfl⟩ := variableType?_eq_some_iff.1 htoken
    cases heq
    exact ⟨⟨t, name.text⟩, [_, _], rfl, rfl, rfl⟩

theorem listReader_parameters : ListReader parameterItem? .rightParen someParameters? := by
  refine ⟨by decide, fun scope ts => ?_⟩
  rw [someParameters?_eq, parameterItem?]
  cases accepted? variableType? ts with
  | none => rfl
  | some first =>
    simp only [Option.bind_some]
    cases name? first.2 <;> rfl

/-! ## Declarations -/

section declarations

variable {kindOf? : Keyword → Option Kind}

/-- Spelled declarations are read, if none of their names is declared twice. -/
theorem variables?_tokens (ds : List (VarDec kindOf?))
    (hl : ls.map Lexeme.token = ds.flatMap VarDec.tokens)
    (hr : (frontKeyword? r).bind kindOf? = none) :
    variables? kindOf? (scope, ls ++ r) =
      (declared? scope (ds.flatMap VarDec.entries)).map fun scope => (scope, r) := by
  induction ds generalizing ls scope with
  | nil =>
    rw [List.map_eq_nil_iff.1 hl, List.nil_append, variables?_eq, hr]
    rfl
  | cons d ds ih =>
    rw [List.flatMap_cons, VarDec.tokens, List.cons_append, List.cons_append] at hl
    obtain ⟨o₁, ls₁, rfl, hl₁⟩ := spelled_cons hl
    obtain ⟨o₂, ls₂, rfl, hl₂⟩ := spelled_cons hl₁
    obtain ⟨ls₃, ls₄, rfl, hl₃, hl₄⟩ := spelled_append hl₂
    have htype : variableType? d.type.token = some d.type.text :=
      variableType?_eq_some_iff.2 ⟨d.type, rfl, rfl⟩
    have hnames := (listReader_names d.type.text d.kind).complete (itemReader_names _ _) scope
      d.first d.others (ls₄ ++ r) hl₃
    have hfront : (frontKeyword? (⟨.keyword d.keyword, o₁⟩ ::
        ⟨d.type.token, o₂⟩ :: (ls₃ ++ ls₄ ++ r))).bind kindOf? = some d.kind := d.starts
    rw [List.cons_append, List.cons_append, variables?_eq, hfront, List.flatMap_cons,
      declared?_append, VarDec.entries, VarDec.names]
    simp only [List.tail_cons, accepted?, htype, Option.map_some, Option.bind_some,
      List.append_assoc, hnames]
    cases declared? scope ((d.first :: d.others).map fun name => ⟨name, d.type.text, d.kind⟩) with
    | none => rfl
    | some scope => exact ih hl₄

/-- What is taken as declarations is spelled as some. -/
theorem variables_taken (hr : variables? kindOf? (scope, ts) = some (scope', r)) :
    ∃ (ds : List (VarDec kindOf?)) (ls : List Lexeme), ts = ls ++ r ∧
      ls.map Lexeme.token = ds.flatMap VarDec.tokens ∧
      declared? scope (ds.flatMap VarDec.entries) = some scope' := by
  induction hn : ts.length using Nat.strongRecOn generalizing ts scope with
  | _ n ih =>
    subst hn
    rw [variables?_eq] at hr
    cases hk : (frontKeyword? ts).bind kindOf? with
    | none =>
      rw [hk] at hr
      cases hr
      exact ⟨[], [], rfl, rfl, rfl⟩
    | some kind =>
      rw [hk] at hr
      -- first what each reader took, then the tokens that it took it from
      obtain ⟨k, hkeyword, hkind⟩ := Option.bind_eq_some_iff.1 hk
      obtain ⟨⟨type, r₁⟩, htype, hrest⟩ := Option.bind_eq_some_iff.1 hr
      obtain ⟨⟨scope₁, r₂⟩, hnames, hmore⟩ := Option.bind_eq_some_iff.1 hrest
      obtain ⟨o₁, ts, rfl⟩ := eq_cons_of_frontKeyword? hkeyword
      obtain ⟨token, o₂, hts, htoken⟩ := accepted?_eq_some_iff.1 htype
      obtain rfl : ts = ⟨token, o₂⟩ :: r₁ := hts
      obtain ⟨t, rfl, rfl⟩ := variableType?_eq_some_iff.1 htoken
      obtain ⟨first, others, ls₁, rfl, hl₁, hdeclared⟩ :=
        (listReader_names t.text kind).sound (itemReader_names _ _) hnames
      have hlen : r₂.length < (⟨.keyword k, o₁⟩ :: ⟨t.token, o₂⟩ :: (ls₁ ++ r₂) :
          List Lexeme).length := by
        simp only [List.length_cons, List.length_append]
        omega
      obtain ⟨ds, ls₂, rfl, hl₂, hds⟩ := ih _ hlen hmore rfl
      refine ⟨⟨k, kind, hkind, t, first, others⟩ :: ds,
        ⟨.keyword k, o₁⟩ :: ⟨t.token, o₂⟩ :: (ls₁ ++ ls₂), by simp, ?_, ?_⟩
      · simp [VarDec.tokens, VarDec.names, hl₁, hl₂]
      · rw [List.flatMap_cons, declared?_append, VarDec.entries, VarDec.names, hdeclared]
        exact hds

end declarations

/-! ## Headers -/

theorem startsParameter (t : TypeName) {offset : Nat} {s : Punctuation} :
    frontSymbol? (⟨t.token, offset⟩ :: r) ≠ some s := by
  cases t <;> exact nofun

/-- Spelled parameters are read, if no name is declared twice. -/
theorem parameters?_tokens (ps : List Parameter) (r : List Lexeme)
    (hl : ls.map Lexeme.token =
      commaSeparated Parameter.tokens ps ++ [Token.symbol .rightParen]) :
    parameters? scope (ls ++ r) =
      (declared? scope (ps.map Parameter.entry)).map fun scope => (scope, r) := by
  cases ps with
  | nil =>
    obtain ⟨o, rfl⟩ := spelled_singleton hl
    exact parameters?_none rfl
  | cons p ps =>
    have hsome : frontSymbol? (ls ++ r) ≠ some .rightParen := by
      cases ps <;>
      · obtain ⟨o, ls', rfl, -⟩ := spelled_cons hl
        exact startsParameter p.type
    rw [parameters?_some hsome]
    exact listReader_parameters.complete itemReader_parameters scope p ps r hl

theorem parameters_taken (hr : parameters? scope ts = some (scope', r)) :
    ∃ (ps : List Parameter) (ls : List Lexeme), ts = ls ++ r ∧
      ls.map Lexeme.token = commaSeparated Parameter.tokens ps ++ [Token.symbol .rightParen] ∧
      declared? scope (ps.map Parameter.entry) = some scope' := by
  by_cases hf : frontSymbol? ts = some .rightParen
  · rw [parameters?_none hf] at hr
    obtain ⟨r₁, hparen, hr⟩ := Option.bind_eq_some_iff.1 hr
    obtain ⟨o, rfl⟩ := behind?_eq_some_iff.1 hparen
    cases hr
    exact ⟨[], [_], rfl, rfl, rfl⟩
  · rw [parameters?_some hf] at hr
    obtain ⟨p, ps, ls, hts, hl, hdeclared⟩ := listReader_parameters.sound itemReader_parameters hr
    exact ⟨p :: ps, ls, hts, hl, hdeclared⟩

/-- The tokens of a subroutine up to its statements. -/
def Grammar.Sub.headerTokens (s : Sub) : List Token :=
  .keyword s.kind.keyword :: resultToken s.result :: .identifier s.name :: .symbol .leftParen ::
    (commaSeparated Parameter.tokens s.parameters ++ [Token.symbol .rightParen] ++
      .symbol .leftBrace :: s.declarations.flatMap VarDec.tokens)

theorem Grammar.Sub.tokens_eq (s : Sub) :
    s.tokens = s.headerTokens ++ (statementsTokens s.body ++ [Token.symbol .rightBrace]) := by
  simp [Sub.tokens, Sub.headerTokens, braced]

/-- The declarations of a spelled subroutine are read as what they mean. -/
theorem header?_tokens (className : String) (s : Sub)
    (hl : ls.map Lexeme.token = s.headerTokens)
    (hr : (frontKeyword? r).bind localKind? = none) :
    header? className scope s.kind (ls ++ r) =
      (s.header? className scope).map fun header => (header, r) := by
  obtain ⟨o₁, ls₁, rfl, hl₁⟩ := spelled_cons hl
  obtain ⟨o₂, ls₂, rfl, hl₂⟩ := spelled_cons hl₁
  obtain ⟨o₃, ls₃, rfl, hl₃⟩ := spelled_cons hl₂
  obtain ⟨o₄, ls₄, rfl, hl₄⟩ := spelled_cons hl₃
  obtain ⟨ls₅, ls₆, rfl, hl₅, hl₆⟩ := spelled_append hl₄
  obtain ⟨o₅, ls₇, rfl, hl₇⟩ := spelled_cons hl₆
  have hvoid : returnsVoid? (resultToken s.result) = some s.result.isNone :=
    returnsVoid?_eq_some_iff.2 ⟨s.result, rfl, rfl⟩
  -- the object, the parameters and the variables are declared one group behind the other, and
  -- a name that is declared twice ends the reading in the group of the second
  simp only [List.cons_append, List.append_assoc, header?_cons, accepted?, hvoid, name?,
    Option.map_some, Option.bind_some, behind?_cons, Sub.header?, Sub.entries, declared?_append]
  cases declared? scope.leaveSubroutine (objectEntries className s.kind) with
  | none => rfl
  | some scope₁ =>
    simp only [Option.bind_some, parameters?_tokens s.parameters _ hl₅]
    cases declared? scope₁ (s.parameters.map Parameter.entry) with
    | none => rfl
    | some scope₂ =>
      simp only [Option.map_some, Option.bind_some, behind?_cons,
        variables?_tokens s.declarations hl₇ hr]
      cases declared? scope₂ (s.declarations.flatMap VarDec.entries) <;> rfl

/-- What is taken as a header is spelled as one, whatever statements stand behind it. -/
theorem header_taken {className : String} {k : Keyword} {kind : SubroutineKind} {offset : Nat}
    {header : Header} (body : List Stmt) (hk : SubroutineKind.ofKeyword? k = some kind)
    (hr : header? className scope kind (⟨.keyword k, offset⟩ :: ts) = some (header, r)) :
    ∃ (s : Sub) (ls : List Lexeme), s.body = body ∧ ⟨.keyword k, offset⟩ :: ts = ls ++ r ∧
      ls.map Lexeme.token = s.headerTokens ∧ s.header? className scope = some header := by
  obtain rfl := SubroutineKind.ofKeyword?_eq_some_iff.1 hk
  rw [header?_cons] at hr
  obtain ⟨⟨isVoid, r₁⟩, hvoid, h₁⟩ := Option.bind_eq_some_iff.1 hr
  obtain ⟨⟨name, r₂⟩, hname, h₂⟩ := Option.bind_eq_some_iff.1 h₁
  obtain ⟨scope₁, hobject, h₃⟩ := Option.bind_eq_some_iff.1 h₂
  obtain ⟨r₃, hparen, h₄⟩ := Option.bind_eq_some_iff.1 h₃
  obtain ⟨⟨scope₂, r₄⟩, hparameters, h₅⟩ := Option.bind_eq_some_iff.1 h₄
  obtain ⟨r₅, hbrace, h₆⟩ := Option.bind_eq_some_iff.1 h₅
  obtain ⟨⟨scope₃, r₆⟩, hvariables, hlast⟩ := Option.bind_eq_some_iff.1 h₆
  cases hlast
  obtain ⟨ps, ls₁, rfl, hl₁, hps⟩ := parameters_taken hparameters
  obtain ⟨ds, ls₂, rfl, hl₂, hds⟩ := variables_taken hvariables
  obtain ⟨token, o₁, rfl, htoken⟩ := accepted?_eq_some_iff.1 hvoid
  obtain ⟨result, rfl, rfl⟩ := returnsVoid?_eq_some_iff.1 htoken
  obtain rfl := name?_eq_some_iff.1 hname
  obtain ⟨o₂, rfl⟩ := behind?_eq_some_iff.1 hparen
  obtain ⟨o₃, rfl⟩ := behind?_eq_some_iff.1 hbrace
  refine ⟨⟨kind, result, name.text, ps, ds, body⟩,
    ⟨.keyword kind.keyword, offset⟩ :: ⟨resultToken result, o₁⟩ ::
      ⟨.identifier name.text, name.offset⟩ :: ⟨.symbol .leftParen, o₂⟩ ::
        (ls₁ ++ ⟨.symbol .leftBrace, o₃⟩ :: ls₂), rfl, by simp, ?_, ?_⟩
  · simp [Sub.headerTokens, hl₁, hl₂]
  · simp [Sub.header?, Sub.entries, declared?_append, hobject, hps, hds]

/-! ## Subroutines and classes -/

/-- No variables are declared by a statement or a brace. -/
theorem localKind?_body {ss : List Stmt}
    (hl : ls.map Lexeme.token = statementsTokens ss ++ [Token.symbol .rightBrace]) :
    (frontKeyword? (ls ++ r)).bind localKind? = none := by
  cases ss with
  | nil =>
    obtain ⟨o, rfl⟩ := spelled_singleton hl
    rfl
  | cons s ss =>
    obtain ⟨k, tokens, hs, hk⟩ := tokens_of_stmt s
    rw [statementsTokens, hs] at hl
    obtain ⟨o, ls', rfl, -⟩ := spelled_cons hl
    cases k <;> first | rfl | cases hk

/-- No variables are declared by a subroutine or the end of the class. -/
theorem classKind?_subroutines {ss : List Sub}
    (hl : ls.map Lexeme.token = ss.flatMap Sub.tokens ++ [Token.symbol .rightBrace]) :
    (frontKeyword? ls).bind classKind? = none := by
  cases ss with
  | nil =>
    obtain ⟨o, rfl⟩ := spelled_singleton hl
    rfl
  | cons s ss =>
    obtain ⟨o, ls', rfl, -⟩ := spelled_cons hl
    cases s.kind <;> rfl

/-- Spelled subroutines are read as what they mean, to the end of the file. -/
theorem subroutines?_tokens (className : String) (scope : Scope) (ss : List Sub)
    (hl : ls.map Lexeme.token = ss.flatMap Sub.tokens ++ [Token.symbol .rightBrace]) :
    subroutines? className scope ls = subroutinesTree? className scope ss := by
  induction ss generalizing ls with
  | nil =>
    obtain ⟨o, rfl⟩ := spelled_singleton hl
    rw [subroutines?_nil rfl, behind?_cons]
    rfl
  | cons s ss ih =>
    rw [List.flatMap_cons, Sub.tokens_eq, List.append_assoc, List.append_assoc] at hl
    obtain ⟨ls₁, ls₂, rfl, hl₁, hl₂⟩ := spelled_append hl
    obtain ⟨ls₃, ls₄, rfl, hl₃, hl₄⟩ := spelled_append hl₂
    have hfront : (frontKeyword? (ls₁ ++ (ls₃ ++ ls₄))).bind SubroutineKind.ofKeyword? =
        some s.kind := by
      obtain ⟨o, ls', rfl, -⟩ := spelled_cons hl₁
      exact SubroutineKind.ofKeyword?_eq_some_iff.2 rfl
    rw [subroutines?_cons hfront, header?_tokens className s hl₁ (localKind?_body hl₃),
      subroutinesTree?, Sub.tree?]
    cases s.header? className scope with
    | none => rfl
    | some header =>
      simp only [Option.map_some, Option.bind_some, Option.bind_eq_bind,
        statements?_tokens s.body ls₄ hl₃]
      cases statementsTree? header s.body with
      | none => rfl
      | some body =>
        simp only [Option.map_some, Option.bind_some, ih hl₄]
        cases subroutinesTree? className scope ss <;> rfl

theorem subroutines_taken {className : String} {subroutines : List Subroutine}
    (hr : subroutines? className scope ts = some subroutines) :
    ∃ ss : List Sub, ts.map Lexeme.token = ss.flatMap Sub.tokens ++ [Token.symbol .rightBrace] ∧
      subroutinesTree? className scope ss = some subroutines := by
  induction hn : ts.length using Nat.strongRecOn generalizing ts subroutines with
  | _ n ih =>
    subst hn
    cases hk : (frontKeyword? ts).bind SubroutineKind.ofKeyword? with
    | none =>
      rw [subroutines?_nil hk] at hr
      obtain ⟨r, hbrace, hend⟩ := Option.bind_eq_some_iff.1 hr
      obtain ⟨o, rfl⟩ := behind?_eq_some_iff.1 hbrace
      split at hend
      · next hnil =>
        cases hend
        exact ⟨[], by simp [hnil], rfl⟩
      · cases hend
    | some kind =>
      rw [subroutines?_cons hk] at hr
      obtain ⟨⟨header, r₁⟩, hheader, h₁⟩ := Option.bind_eq_some_iff.1 hr
      obtain ⟨⟨body, r₂⟩, hbody, h₂⟩ := Option.bind_eq_some_iff.1 h₁
      obtain ⟨later, hlater, hlast⟩ := Option.bind_eq_some_iff.1 h₂
      cases hlast
      -- the tokens are named only after the lengths, which the induction needs
      have hlen₁ : r₁.length < ts.length := length_lt_of_taken? hheader
      have hlen₂ : r₂.length < r₁.length := length_lt_of_taken? hbody
      obtain ⟨stmts, ls₂, rfl, hl₂, hstmts⟩ := statements?_eq_some_iff.1 hbody
      obtain ⟨k, hkeyword, hkind⟩ := Option.bind_eq_some_iff.1 hk
      obtain ⟨o, ts, rfl⟩ := eq_cons_of_frontKeyword? hkeyword
      obtain ⟨s, ls₁, rfl, hts, hl₁, hs⟩ := header_taken stmts hkind hheader
      obtain ⟨ss, hl₃, hss⟩ := ih _ (Nat.lt_trans hlen₂ hlen₁) hlater rfl
      refine ⟨s :: ss, ?_, by simp [subroutinesTree?, Sub.tree?, hs, hstmts, hss]⟩
      rw [hts, List.map_append, List.map_append, hl₁, hl₂, hl₃, List.flatMap_cons, Sub.tokens_eq]
      simp only [List.append_assoc]

/-- A spelled class is read as what it means. -/
theorem class?_tokens (c : Cls) (hl : ls.map Lexeme.token = c.tokens) :
    class? ls = c.tree? := by
  rw [Cls.tokens, braced, List.append_assoc] at hl
  obtain ⟨o₁, ls₁, rfl, hl₁⟩ := spelled_cons hl
  obtain ⟨o₂, ls₂, rfl, hl₂⟩ := spelled_cons hl₁
  obtain ⟨o₃, ls₃, rfl, hl₃⟩ := spelled_cons hl₂
  obtain ⟨ls₄, ls₅, rfl, hl₄, hl₅⟩ := spelled_append hl₃
  rw [class?_eq, preamble?_eq, behindKeyword?_cons, Cls.tree?, Cls.scope?]
  simp only [Option.bind_some, name?, behind?_cons,
    variables?_tokens c.declarations hl₄ (classKind?_subroutines hl₅)]
  cases declared? {} (c.declarations.flatMap VarDec.entries) with
  | none => rfl
  | some scope =>
    simp only [Option.map_some, Option.bind_some, Option.bind_eq_bind,
      subroutines?_tokens c.name scope _ hl₅]
    cases subroutinesTree? c.name scope c.subroutines <;> rfl

/-- **Classes are read by the grammar.** A file is read as a class exactly if its tokens
spell one that means it. -/
theorem class?_eq_some_iff {d : ClassDecl} :
    class? ts = some d ↔ ∃ c : Cls, ts.map Lexeme.token = c.tokens ∧ c.tree? = some d := by
  constructor
  · intro hr
    rw [class?_eq, preamble?_eq] at hr
    obtain ⟨⟨⟨name, scope⟩, r⟩, hpreamble, hrest⟩ := Option.bind_eq_some_iff.1 hr
    obtain ⟨subroutines, hsubroutines, hlast⟩ := Option.bind_eq_some_iff.1 hrest
    obtain ⟨r₁, hclass, h₁⟩ := Option.bind_eq_some_iff.1 hpreamble
    obtain ⟨⟨name, r₂⟩, hname, h₂⟩ := Option.bind_eq_some_iff.1 h₁
    obtain ⟨r₃, hbrace, h₃⟩ := Option.bind_eq_some_iff.1 h₂
    obtain ⟨⟨scope, r₄⟩, hvariables, h₄⟩ := Option.bind_eq_some_iff.1 h₃
    cases h₄
    cases hlast
    obtain ⟨ss, hl₂, hss⟩ := subroutines_taken hsubroutines
    obtain ⟨ds, ls, rfl, hl₁, hds⟩ := variables_taken hvariables
    obtain ⟨o₁, rfl⟩ := behindKeyword?_eq_some_iff.1 hclass
    obtain rfl := name?_eq_some_iff.1 hname
    obtain ⟨o₃, rfl⟩ := behind?_eq_some_iff.1 hbrace
    refine ⟨⟨name.text, ds, ss⟩, ?_, by simp [Cls.tree?, Cls.scope?, hds, hss]⟩
    simp [Cls.tokens, braced, hl₁, hl₂]
  · rintro ⟨c, hl, hc⟩
    rw [class?_tokens c hl, hc]

end JackToolchain.Jack
