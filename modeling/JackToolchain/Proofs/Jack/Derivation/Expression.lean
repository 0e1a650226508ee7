import JackToolchain.Proofs.Jack.Reading.Expression

/-!
# Expressions are read by the grammar

What an expression is followed by decides where it ends: an operator would go on with it,
and behind a name so would a bracket, a parenthesis or a dot.

* `TermEnds`, `ExprEnds`: the tokens behind do not go on.
* `expression?_tokens`: a spelled tree is read as what it means.
* `wholeCall?_tokens`: so is a spelled call.
-/

namespace JackToolchain.Jack

open Grammar

variable {h : Header} {ls ts r : List Lexeme} {token : Token} {tokens : List Token}

/-! ## Spelled tokens -/

theorem spelled_cons (hl : ls.map Lexeme.token = token :: tokens) :
    ∃ offset ls', ls = ⟨token, offset⟩ :: ls' ∧ ls'.map Lexeme.token = tokens := by
  obtain ⟨⟨_, offset⟩, ls', rfl, rfl, hl'⟩ := List.map_eq_cons_iff.1 hl
  exact ⟨offset, ls', rfl, hl'⟩

theorem spelled_append {more : List Token} (hl : ls.map Lexeme.token = tokens ++ more) :
    ∃ l₁ l₂, ls = l₁ ++ l₂ ∧ l₁.map Lexeme.token = tokens ∧ l₂.map Lexeme.token = more :=
  List.map_eq_append_iff.1 hl

theorem spelled_singleton (hl : ls.map Lexeme.token = [token]) :
    ∃ offset, ls = [⟨token, offset⟩] := by
  obtain ⟨offset, ls', rfl, hl'⟩ := spelled_cons hl
  exact ⟨offset, by rw [List.map_eq_nil_iff.1 hl']⟩

/-! ## Where terms and expressions end -/

/-- The tokens behind a term do not go on with it. -/
structure TermEnds (tokens : List Token) (r : List Lexeme) : Prop where
  name : ∀ name, tokens.getLast? = some (.identifier name) →
    frontSymbol? r ∉ [some .leftBracket, some .leftParen, some .dot]
  this : tokens.getLast? = some (.keyword .this) → frontSymbol? r ≠ some .dot

/-- The tokens behind an expression do not go on with it. -/
structure ExprEnds (tokens : List Token) (r : List Lexeme) : Prop extends TermEnds tokens r where
  operator : (frontSymbol? r).bind BinaryOperator.ofSymbol? = none

/-- A symbol that neither starts arguments or an index nor stands before a member ends any
term. -/
theorem TermEnds.of_front {s : Punctuation} (hf : frontSymbol? r = some s)
    (hs : s ∉ [.leftBracket, .leftParen, .dot]) : TermEnds tokens r := by
  rw [List.mem_cons, List.mem_cons, List.mem_singleton, not_or, not_or] at hs
  constructor
  · intro name _
    rw [hf]
    simp [hs.1, hs.2.1, hs.2.2]
  · intro _
    rw [hf]
    simp [hs.2.2]

theorem ExprEnds.of_front {s : Punctuation} (hf : frontSymbol? r = some s)
    (hs : s ∈ [.rightBracket, .rightParen, .comma, .semicolon]) : ExprEnds tokens r := by
  have hall : ∀ s ∈ [Punctuation.rightBracket, .rightParen, .comma, .semicolon],
      s ∉ [.leftBracket, .leftParen, .dot] ∧ BinaryOperator.ofSymbol? s = none := by decide
  exact ⟨.of_front hf (hall s hs).1, by rw [hf]; exact (hall s hs).2⟩

/-- Only the last tokens count. -/
theorem termEnds_append_iff (before : List Token) (hne : tokens ≠ []) :
    TermEnds (before ++ tokens) r ↔ TermEnds tokens r := by
  have hlast : (before ++ tokens).getLast? = tokens.getLast? := by
    rw [List.getLast?_append, List.getLast?_eq_some_getLast hne]; rfl
  constructor
  · intro he
    exact ⟨fun name hn => he.name name (hlast.trans hn), fun ht => he.this (hlast.trans ht)⟩
  · intro he
    exact ⟨fun name hn => he.name name (hlast.symm.trans hn),
      fun ht => he.this (hlast.symm.trans ht)⟩

theorem TermEnds.right (before : List Token) (he : TermEnds (before ++ tokens) r) :
    TermEnds tokens r := by
  by_cases hne : tokens = []
  · subst hne
    exact ⟨nofun, nofun⟩
  · exact (termEnds_append_iff before hne).1 he

/-- Only a name and `this` can be gone on with. -/
theorem TermEnds.of_last {last : Token} (hl : tokens.getLast? = some last)
    (hn : ∀ name, last ≠ .identifier name) (ht : last ≠ .keyword .this) : TermEnds tokens r :=
  ⟨fun name h => absurd (Option.some.inj (hl.symm.trans h)) (hn name),
    fun h => absurd (Option.some.inj (hl.symm.trans h)) ht⟩

/-- A term that ends with a symbol is not gone on with. -/
theorem TermEnds.of_symbol (before : List Token) (s : Punctuation)
    (ht : tokens = before ++ [Token.symbol s]) : TermEnds tokens r := by
  have hl : tokens.getLast? = some (.symbol s) := by rw [ht, List.getLast?_concat]
  exact .of_last hl nofun nofun

theorem tokens_of_term (t : Term) :
    ∃ token tokens, t.tokens = token :: tokens ∧ startsTerm token := by
  cases t with
  | call callee arguments => cases callee <;> exact ⟨_, _, rfl, rfl⟩
  | _ => exact ⟨_, _, rfl, rfl⟩

theorem term_tokens_ne_nil (t : Term) : t.tokens ≠ [] := by
  obtain ⟨token, tokens, ht, -⟩ := tokens_of_term t
  simp [ht]

theorem tokens_of_expr (e : Expr) :
    ∃ token tokens, e.tokens = token :: tokens ∧ startsTerm token := by
  obtain ⟨first, others⟩ := e
  obtain ⟨token, tokens, ht, hs⟩ := tokens_of_term first
  exact ⟨token, tokens ++ others.tokens, by rw [Expr.tokens, ht, List.cons_append], hs⟩

/-- A term does not start with a symbol that closes or separates arguments. -/
theorem frontSymbol?_ne_of_startsTerm {s : Punctuation} {offset : Nat} (ht : startsTerm token)
    (hs : s ∉ [.leftParen, .minus, .tilde]) : frontSymbol? (⟨token, offset⟩ :: r) ≠ some s := by
  cases token with
  | symbol t =>
    rintro ⟨⟩
    exact hs (by simpa [startsTerm] using ht)
  | _ => exact nofun

theorem BinaryOperator.symbol_not_mem (operator : BinaryOperator) :
    operator.symbol ∉ [.leftBracket, .leftParen, .dot] := by
  cases operator <;> decide

/-- A term in a chain ends before the next operator. -/
theorem TermEnds.of_chain {t : Term} {c : Chain} (hl : ls.map Lexeme.token = c.tokens)
    (he : TermEnds (t.tokens ++ c.tokens) r) : TermEnds t.tokens (ls ++ r) := by
  cases c with
  | nil =>
    rw [Chain.tokens, List.append_nil] at he
    rw [List.map_eq_nil_iff.1 hl]
    exact he
  | cons operator operand others =>
    obtain ⟨o, ls', rfl, -⟩ := spelled_cons hl
    exact .of_front rfl operator.symbol_not_mem

theorem TermEnds.chain {t : Term} {c : Chain} (hl : ls.map Lexeme.token = c.tokens)
    (ht : TermEnds t.tokens (ls ++ r)) (hc : TermEnds c.tokens r) :
    TermEnds (t.tokens ++ c.tokens) r := by
  cases c with
  | nil =>
    rw [Chain.tokens, List.append_nil]
    rw [List.map_eq_nil_iff.1 hl] at ht
    exact ht
  | cons operator operand others =>
    exact (termEnds_append_iff _ (by rw [Chain.tokens]; exact nofun)).2 hc

/-! ## What is spelled is read -/

theorem Callee.resolve_member {head name : String} :
    (Callee.member head name).resolve h = some ((CallHead.named head).target h.scope, name) := by
  simp only [Callee.resolve, CallHead.target]
  cases h.scope.find? head <;> rfl

theorem callHead?_tokens (c : Callee) (offset : Nat) (hl : ls.map Lexeme.token = c.tokens) :
    (callHead? h (ls ++ ⟨.symbol .leftParen, offset⟩ :: r)).bind
      (fun (head, r₁) => callee? h head r₁) = (c.resolve h).map fun callee => (callee, r) := by
  cases c with
  | bare name =>
    obtain ⟨o, rfl⟩ := spelled_singleton hl
    rw [List.singleton_append, callHead?_identifier, Option.bind_some]
    exact callee?_bare rfl
  | member head name =>
    obtain ⟨o₁, ls₁, rfl, hl₁⟩ := spelled_cons hl
    obtain ⟨o₂, ls₂, rfl, hl₂⟩ := spelled_cons hl₁
    obtain ⟨o₃, rfl⟩ := spelled_singleton hl₂
    simp [callHead?_identifier, callee?_dot, frontSymbol?, Callee.resolve_member, name?]
  | this name =>
    obtain ⟨o₁, ls₁, rfl, hl₁⟩ := spelled_cons hl
    obtain ⟨o₂, ls₂, rfl, hl₂⟩ := spelled_cons hl₁
    obtain ⟨o₃, rfl⟩ := spelled_singleton hl₂
    cases ho : h.hasObject <;>
      simp [callHead?_this, callee?_dot, Callee.resolve, name?, CallHead.target, ho]

theorem term?_callee (c : Callee) {offset : Nat} (hl : ls.map Lexeme.token = c.tokens) :
    term? h (ls ++ ⟨.symbol .leftParen, offset⟩ :: r) =
      (wholeCall? h (ls ++ ⟨.symbol .leftParen, offset⟩ :: r)).bind
        fun ((target, member, arguments), r₁) => some (.call target member arguments, r₁) := by
  cases c with
  | bare name =>
    obtain ⟨o, rfl⟩ := spelled_singleton hl
    exact term?_call (.inl rfl)
  | member head name =>
    obtain ⟨o₁, ls₁, rfl, hl₁⟩ := spelled_cons hl
    obtain ⟨o₂, ls₂, rfl, hl₂⟩ := spelled_cons hl₁
    exact term?_call (.inr rfl)
  | this name =>
    obtain ⟨o₁, ls₁, rfl, hl₁⟩ := spelled_cons hl
    obtain ⟨o₂, ls₂, rfl, hl₂⟩ := spelled_cons hl₁
    exact term?_this_dot rfl

/-- A call is read as what its arguments are read as. -/
theorem wholeCall?_callee {es : List Expr} {r₁ : List Lexeme} (c : Callee) (offset : Nat)
    (hl : ls.map Lexeme.token = c.tokens)
    (hr : arguments? h r₁ = (argumentsTree? h es).map fun arguments => (arguments, r)) :
    wholeCall? h (ls ++ ⟨.symbol .leftParen, offset⟩ :: r₁) =
      (c.resolve h).bind fun (target, name) => (argumentsTree? h es).map fun arguments =>
        ((target, name, arguments), r) := by
  rw [wholeCall?_eq, callHead?_tokens c offset hl]
  cases c.resolve h with
  | none => rfl
  | some callee =>
    simp only [Option.map_some, Option.bind_some, hr]
    cases argumentsTree? h es <;> rfl

/-- An argument ends before a comma or a parenthesis. -/
theorem exprEnds_moreTokens {es : List Expr}
    (hl : ls.map Lexeme.token = moreTokens es ++ [Token.symbol .rightParen]) :
    ExprEnds tokens (ls ++ r) := by
  cases es with
  | nil =>
    obtain ⟨o, ls', rfl, -⟩ := spelled_cons hl
    exact .of_front rfl (by decide)
  | cons e es =>
    obtain ⟨o, ls', rfl, -⟩ := spelled_cons hl
    exact .of_front rfl (by decide)

mutual

/-- A spelled term is read as what it means. -/
theorem term?_tokens (t : Term) {ls r : List Lexeme} (hl : ls.map Lexeme.token = t.tokens)
    (he : TermEnds t.tokens r) : term? h (ls ++ r) = (t.tree? h).map fun e => (e, r) := by
  cases t with
  | integer value =>
    obtain ⟨o, rfl⟩ := spelled_singleton hl
    exact term?_integer
  | string value =>
    obtain ⟨o, rfl⟩ := spelled_singleton hl
    refine term?_string.trans ?_
    rw [Term.tree?]
    split <;> rfl
  | «true» =>
    obtain ⟨o, rfl⟩ := spelled_singleton hl
    exact term?_true
  | «false» =>
    obtain ⟨o, rfl⟩ := spelled_singleton hl
    exact term?_false
  | null =>
    obtain ⟨o, rfl⟩ := spelled_singleton hl
    exact term?_null
  | this =>
    obtain ⟨o, rfl⟩ := spelled_singleton hl
    refine (term?_this (he.this rfl)).trans ?_
    rw [Term.tree?]
    split <;> rfl
  | name name =>
    obtain ⟨o, rfl⟩ := spelled_singleton hl
    have hf := he.name name rfl
    simp only [List.mem_cons, List.not_mem_nil, or_false, not_or] at hf
    refine (term?_variable hf.1 hf.2.1 hf.2.2).trans ?_
    rw [Term.tree?]
    cases h.scope.find? name <;> rfl
  | element array index =>
    obtain ⟨o₁, ls₁, rfl, hl₁⟩ := spelled_cons hl
    obtain ⟨o₂, ls₂, rfl, hl₂⟩ := spelled_cons hl₁
    obtain ⟨ls₃, ls₄, rfl, hl₃, hl₄⟩ := spelled_append hl₂
    obtain ⟨o₃, rfl⟩ := spelled_singleton hl₄
    have hends : ExprEnds index.tokens (⟨.symbol .rightBracket, o₃⟩ :: r) :=
      .of_front rfl (by decide)
    have hindex := expression?_tokens index hl₃ hends
    rw [List.cons_append, List.cons_append, List.append_assoc, List.singleton_append,
      term?_element rfl, Term.tree?]
    simp only [behind?_cons, Option.bind_some, hindex]
    cases h.scope.find? array <;> cases index.tree? h <;> simp
  | call callee arguments =>
    obtain ⟨ls₁, ls₂, rfl, hl₁, hl₂⟩ := spelled_append hl
    obtain ⟨o₁, ls₃, rfl, hl₃⟩ := spelled_cons hl₂
    have hcall := wholeCall?_callee callee o₁ hl₁ (arguments?_tokens arguments r hl₃)
    rw [List.append_assoc, List.cons_append, term?_callee callee hl₁, hcall, Term.tree?]
    cases callee.resolve h <;> cases argumentsTree? h arguments <;> simp
  | enclosed e =>
    obtain ⟨o₁, ls₁, rfl, hl₁⟩ := spelled_cons hl
    obtain ⟨ls₂, ls₃, rfl, hl₂, hl₃⟩ := spelled_append hl₁
    obtain ⟨o₂, rfl⟩ := spelled_singleton hl₃
    have hinner := expression?_tokens e hl₂
      (.of_front (r := ⟨.symbol .rightParen, o₂⟩ :: r) rfl (by decide))
    rw [List.cons_append, List.append_assoc, List.singleton_append, term?_enclosed, hinner,
      Term.tree?]
    cases e.tree? h <;> simp
  | negate operand =>
    obtain ⟨o, ls₁, rfl, hl₁⟩ := spelled_cons hl
    have hoperand := term?_tokens operand hl₁
      ((termEnds_append_iff [.symbol .minus] (term_tokens_ne_nil operand)).1 he)
    rw [List.cons_append, term?_negate, hoperand, Term.tree?]
    cases operand.tree? h <;> simp
  | invert operand =>
    obtain ⟨o, ls₁, rfl, hl₁⟩ := spelled_cons hl
    have hoperand := term?_tokens operand hl₁
      ((termEnds_append_iff [.symbol .tilde] (term_tokens_ne_nil operand)).1 he)
    rw [List.cons_append, term?_invert, hoperand, Term.tree?]
    cases operand.tree? h <;> simp

/-- A spelled expression is read as what it means. -/
theorem expression?_tokens (e : Expr) {ls r : List Lexeme} (hl : ls.map Lexeme.token = e.tokens)
    (he : ExprEnds e.tokens r) : expression? h (ls ++ r) = (e.tree? h).map fun v => (v, r) := by
  obtain ⟨first, others⟩ := e
  obtain ⟨ls₁, ls₂, rfl, hl₁, hl₂⟩ := spelled_append hl
  have hfirst := term?_tokens first hl₁ (.of_chain hl₂ he.toTermEnds)
  rw [List.append_assoc, expression?_eq, hfirst, Expr.tree?]
  cases first.tree? h with
  | none => rfl
  | some left =>
    exact operations?_tokens others left hl₂ ⟨he.toTermEnds.right first.tokens, he.operator⟩

/-- Spelled operators are read as what they do to the expression before them. -/
theorem operations?_tokens (c : Chain) (left : Expression) {ls r : List Lexeme}
    (hl : ls.map Lexeme.token = c.tokens) (he : ExprEnds c.tokens r) :
    operations? h (left, ls ++ r) = (c.tree? h left).map fun v => (v, r) := by
  cases c with
  | nil =>
    rw [List.map_eq_nil_iff.1 hl, List.nil_append, operations?_eq, he.operator]
    rfl
  | cons operator operand others =>
    obtain ⟨o, ls₁, rfl, hl₁⟩ := spelled_cons hl
    obtain ⟨ls₂, ls₃, rfl, hl₂, hl₃⟩ := spelled_append hl₁
    have hends : TermEnds (operand.tokens ++ others.tokens) r :=
      he.toTermEnds.right [.symbol operator.symbol]
    have hoperand := term?_tokens operand hl₂ (.of_chain hl₃ hends)
    have hfront : (frontSymbol? (⟨.symbol operator.symbol, o⟩ :: (ls₂ ++ ls₃ ++ r))).bind
        BinaryOperator.ofSymbol? = some operator :=
      BinaryOperator.ofSymbol?_eq_some_iff.2 rfl
    rw [List.cons_append, operations?_eq, hfront, List.append_assoc, Chain.tree?]
    simp only [List.tail_cons, hoperand]
    cases operand.tree? h with
    | none => rfl
    | some right => exact operations?_tokens others _ hl₃ ⟨hends.right operand.tokens, he.operator⟩

/-- Spelled arguments are read as what they mean. -/
theorem arguments?_tokens (es : List Expr) {ls : List Lexeme} (r : List Lexeme)
    (hl : ls.map Lexeme.token = argumentsTokens es ++ [Token.symbol .rightParen]) :
    arguments? h (ls ++ r) = (argumentsTree? h es).map fun arguments => (arguments, r) := by
  cases es with
  | nil =>
    obtain ⟨o, rfl⟩ := spelled_singleton hl
    exact arguments?_none rfl
  | cons e es =>
    rw [argumentsTokens, List.append_assoc] at hl
    obtain ⟨ls₁, ls₂, rfl, hl₁, hl₂⟩ := spelled_append hl
    have hnone : frontSymbol? (ls₁ ++ (ls₂ ++ r)) ≠ some .rightParen := by
      obtain ⟨token, tokens, ht, hs⟩ := tokens_of_expr e
      obtain ⟨o, ls₃, rfl, -⟩ := spelled_cons (hl₁.trans ht)
      exact frontSymbol?_ne_of_startsTerm hs (by decide)
    have hends : ExprEnds e.tokens (ls₂ ++ r) := exprEnds_moreTokens hl₂
    rw [List.append_assoc, arguments?_some hnone, expression?_tokens e hl₁ hends,
      argumentsTree?]
    cases e.tree? h with
    | none => rfl
    | some first =>
      simp only [Option.map_some, Option.bind_some, moreArguments?_tokens es r hl₂]
      cases argumentsTree? h es <;> rfl

/-- Spelled arguments behind commas are read as what they mean. -/
theorem moreArguments?_tokens (es : List Expr) {ls : List Lexeme} (r : List Lexeme)
    (hl : ls.map Lexeme.token = moreTokens es ++ [Token.symbol .rightParen]) :
    moreArguments? h (ls ++ r) = (argumentsTree? h es).map fun arguments => (arguments, r) := by
  cases es with
  | nil =>
    obtain ⟨o, rfl⟩ := spelled_singleton hl
    exact moreArguments?_end (by simp [frontSymbol?])
  | cons e es =>
    rw [moreTokens, List.cons_append, List.append_assoc] at hl
    obtain ⟨o, ls₁, rfl, hl₁⟩ := spelled_cons hl
    obtain ⟨ls₂, ls₃, rfl, hl₂, hl₃⟩ := spelled_append hl₁
    rw [List.cons_append, List.append_assoc, moreArguments?_comma rfl, behind?_cons,
      Option.bind_some, expression?_tokens e hl₂ (exprEnds_moreTokens hl₃), argumentsTree?]
    cases e.tree? h with
    | none => rfl
    | some first =>
      simp only [Option.map_some, Option.bind_some, moreArguments?_tokens es r hl₃]
      cases argumentsTree? h es <;> rfl

end

/-- A spelled call is read as what it means. -/
theorem wholeCall?_tokens (c : Callee) (es : List Expr) {ls₁ ls₂ : List Lexeme}
    (hl₁ : ls₁.map Lexeme.token = c.tokens)
    (hl₂ : ls₂.map Lexeme.token = argumentsTokens es ++ [Token.symbol .rightParen]) (offset : Nat)
    (r : List Lexeme) :
    wholeCall? h (ls₁ ++ ⟨.symbol .leftParen, offset⟩ :: (ls₂ ++ r)) =
      (c.resolve h).bind fun (target, name) => (argumentsTree? h es).map fun arguments =>
        ((target, name, arguments), r) :=
  wholeCall?_callee c offset hl₁ (arguments?_tokens es r hl₂)

end JackToolchain.Jack
