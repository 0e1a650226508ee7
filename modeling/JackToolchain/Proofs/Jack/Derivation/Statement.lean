import JackToolchain.Proofs.Jack.Derivation.Expression
import JackToolchain.Proofs.Jack.Reading.Statement

/-!
# Statements are read by the grammar

* `statements?_tokens`: spelled statements are read as what they mean.
-/

namespace JackToolchain.Jack

open Grammar

variable {h : Header} {ls r : List Lexeme}

theorem spelled_enclosed {e : Expr} {left right : Punctuation} {more : List Token}
    (hl : ls.map Lexeme.token = .symbol left :: (e.tokens ++ Token.symbol right :: more)) :
    ∃ l₁ l₂, ls = l₁ ++ l₂ ∧
      l₁.map Lexeme.token = .symbol left :: (e.tokens ++ [Token.symbol right]) ∧
      l₂.map Lexeme.token = more := by
  rw [List.append_cons, ← List.cons_append] at hl
  exact spelled_append hl

theorem enclosed?_tokens (e : Expr) {left right : Punctuation}
    (hl : ls.map Lexeme.token = .symbol left :: (e.tokens ++ [Token.symbol right]))
    (hright : right ∈ [.rightBracket, .rightParen, .comma, .semicolon]) :
    enclosed? h left right (ls ++ r) = (e.tree? h).map fun v => (v, r) := by
  obtain ⟨o₁, ls₁, rfl, hl₁⟩ := spelled_cons hl
  obtain ⟨ls₂, ls₃, rfl, hl₂, hl₃⟩ := spelled_append hl₁
  obtain ⟨o₂, rfl⟩ := spelled_singleton hl₃
  have hends : ExprEnds e.tokens (⟨.symbol right, o₂⟩ :: r) := .of_front rfl hright
  rw [enclosed?_eq, List.cons_append, behind?_cons, Option.bind_some, List.append_assoc,
    List.singleton_append, expression?_tokens e hl₂ hends]
  cases e.tree? h <;> simp

/-- Braces are read around what is read as statements. -/
theorem block?_tokens {ss : List Stmt} (r : List Lexeme)
    (hl : ls.map Lexeme.token = braced (statementsTokens ss))
    (hs : ∀ ls' : List Lexeme,
      ls'.map Lexeme.token = statementsTokens ss ++ [Token.symbol .rightBrace] →
      statements? h (ls' ++ r) = (statementsTree? h ss).map fun body => (body, r)) :
    block? h (ls ++ r) = (statementsTree? h ss).map fun body => (body, r) := by
  obtain ⟨o, ls₁, rfl, hl₁⟩ := spelled_cons hl
  rw [block?_eq, List.cons_append, behind?_cons, Option.bind_some, hs ls₁ hl₁]

theorem tokens_of_stmt (s : Stmt) :
    ∃ k tokens, s.tokens = .keyword k :: tokens ∧ startsStatement k := by
  cases s with
  | «return» value => cases value <;> exact ⟨_, _, rfl, rfl⟩
  | _ => exact ⟨_, _, rfl, rfl⟩

/-- No `else` stands before a statement or a brace. -/
theorem frontKeyword?_ne_else {ss : List Stmt}
    (hl : ls.map Lexeme.token = statementsTokens ss ++ [Token.symbol .rightBrace]) :
    frontKeyword? (ls ++ r) ≠ some .else := by
  cases ss with
  | nil =>
    obtain ⟨o, rfl⟩ := spelled_singleton hl
    exact nofun
  | cons s ss =>
    obtain ⟨k, tokens, hs, hk⟩ := tokens_of_stmt s
    rw [statementsTokens, hs] at hl
    obtain ⟨o, ls', rfl, -⟩ := spelled_cons hl
    rintro ⟨⟩
    cases hk

mutual

/-- A spelled statement is read as what it means. -/
theorem statement?_tokens (s : Stmt) {ls : List Lexeme} (r : List Lexeme)
    (hl : ls.map Lexeme.token = s.tokens) (helse : frontKeyword? r ≠ some .else) :
    statement? h (ls ++ r) = (s.tree? h).map fun v => (v, r) := by
  cases s with
  | assign name value =>
    obtain ⟨o₁, ls₁, rfl, hl₁⟩ := spelled_cons hl
    obtain ⟨o₂, ls₂, rfl, hl₂⟩ := spelled_cons hl₁
    obtain ⟨o₃, ls₃, rfl, -⟩ := spelled_cons hl₂
    have hvalue := enclosed?_tokens (h := h) (r := r) value hl₂ (by decide)
    rw [List.cons_append, List.cons_append, statement?_let, Stmt.tree?]
    simp only [name?, Option.bind_some, hvalue]
    cases h.scope.find? name <;> cases value.tree? h <;> simp [frontSymbol?]
  | assignElement array index value =>
    obtain ⟨o₁, ls₁, rfl, hl₁⟩ := spelled_cons hl
    obtain ⟨o₂, ls₂, rfl, hl₂⟩ := spelled_cons hl₁
    obtain ⟨ls₃, ls₄, rfl, hl₃, hl₄⟩ := spelled_enclosed hl₂
    obtain ⟨o₃, ls₅, rfl, -⟩ := spelled_cons hl₃
    have hindex := enclosed?_tokens (h := h) (r := ls₄ ++ r) index hl₃ (by decide)
    have hvalue := enclosed?_tokens (h := h) (r := r) value hl₄ (by decide)
    rw [List.cons_append, List.cons_append, List.append_assoc, statement?_let, Stmt.tree?]
    simp only [name?, Option.bind_some, hindex]
    cases h.scope.find? array with
    | none => rfl
    | some v =>
      cases index.tree? h with
      | none => rfl
      | some i =>
        cases hw : value.tree? h <;> simp [frontSymbol?, hvalue, hw]
  | ifThen condition body =>
    obtain ⟨o₁, ls₁, rfl, hl₁⟩ := spelled_cons hl
    obtain ⟨ls₂, ls₃, rfl, hl₂, hl₃⟩ := spelled_enclosed hl₁
    have hcondition := enclosed?_tokens (h := h) (r := ls₃ ++ r) condition hl₂ (by decide)
    have hbody := block?_tokens (h := h) r hl₃ fun ls' hl' => statements?_tokens body r hl'
    rw [List.cons_append, List.append_assoc, statement?_if, hcondition, Stmt.tree?]
    cases condition.tree? h with
    | none => rfl
    | some c =>
      simp only [Option.map_some, Option.bind_some, hbody]
      cases statementsTree? h body <;> simp [helse]
  | ifElse condition body alternative =>
    obtain ⟨o₁, ls₁, rfl, hl₁⟩ := spelled_cons hl
    obtain ⟨ls₂, ls₃, rfl, hl₂, hl₃⟩ := spelled_enclosed hl₁
    obtain ⟨ls₄, ls₅, rfl, hl₄, hl₅⟩ := spelled_append hl₃
    obtain ⟨o₂, ls₆, rfl, hl₆⟩ := spelled_cons hl₅
    have hcondition := enclosed?_tokens (h := h)
      (r := ls₄ ++ (⟨.keyword .else, o₂⟩ :: ls₆ ++ r)) condition hl₂ (by decide)
    have hbody := block?_tokens (h := h) (⟨.keyword .else, o₂⟩ :: ls₆ ++ r) hl₄
      fun ls' hl' => statements?_tokens body _ hl'
    have halternative := block?_tokens (h := h) r hl₆
      fun ls' hl' => statements?_tokens alternative r hl'
    rw [List.cons_append, List.append_assoc, List.append_assoc, statement?_if, hcondition,
      Stmt.tree?]
    cases condition.tree? h with
    | none => rfl
    | some c =>
      simp only [Option.map_some, Option.bind_some, hbody]
      cases statementsTree? h body with
      | none => rfl
      | some b =>
        cases ha : statementsTree? h alternative <;> simp [frontKeyword?, halternative, ha]
  | «while» condition body =>
    obtain ⟨o₁, ls₁, rfl, hl₁⟩ := spelled_cons hl
    obtain ⟨ls₂, ls₃, rfl, hl₂, hl₃⟩ := spelled_enclosed hl₁
    have hcondition := enclosed?_tokens (h := h) (r := ls₃ ++ r) condition hl₂ (by decide)
    have hbody := block?_tokens (h := h) r hl₃ fun ls' hl' => statements?_tokens body r hl'
    rw [List.cons_append, List.append_assoc, statement?_while, hcondition, Stmt.tree?]
    cases condition.tree? h with
    | none => rfl
    | some c =>
      simp only [Option.map_some, Option.bind_some, hbody]
      cases statementsTree? h body <;> simp
  | call callee arguments =>
    obtain ⟨o₁, ls₁, rfl, hl₁⟩ := spelled_cons hl
    obtain ⟨ls₂, ls₃, rfl, hl₂, hl₃⟩ := spelled_append hl₁
    obtain ⟨o₂, ls₄, rfl, hl₄⟩ := spelled_cons hl₃
    rw [List.append_cons] at hl₄
    obtain ⟨ls₅, ls₆, rfl, hl₅, hl₆⟩ := spelled_append hl₄
    obtain ⟨o₃, rfl⟩ := spelled_singleton hl₆
    have hcall := wholeCall?_tokens (h := h) callee arguments hl₂ hl₅ o₂
      (⟨.symbol .semicolon, o₃⟩ :: r)
    rw [List.cons_append, List.append_assoc, List.cons_append, List.append_assoc,
      List.singleton_append, statement?_do, hcall, Stmt.tree?]
    cases callee.resolve h <;> cases argumentsTree? h arguments <;> simp
  | «return» value =>
    cases value with
    | none =>
      obtain ⟨o₁, ls₁, rfl, hl₁⟩ := spelled_cons hl
      obtain ⟨o₂, rfl⟩ := spelled_singleton hl₁
      rw [List.cons_append, statement?_return, Stmt.tree?]
      simp [frontSymbol?]
    | some e =>
      obtain ⟨o₁, ls₁, rfl, hl₁⟩ := spelled_cons hl
      obtain ⟨ls₂, ls₃, rfl, hl₂, hl₃⟩ := spelled_append hl₁
      obtain ⟨o₂, rfl⟩ := spelled_singleton hl₃
      have hsemicolon : frontSymbol? (ls₂ ++ (⟨.symbol .semicolon, o₂⟩ :: r)) ≠
          some .semicolon := by
        obtain ⟨token, tokens, ht, hs⟩ := tokens_of_expr e
        obtain ⟨o, ls₃, rfl, -⟩ := spelled_cons (hl₂.trans ht)
        exact frontSymbol?_ne_of_startsTerm hs (by decide)
      have hends : ExprEnds e.tokens (⟨.symbol .semicolon, o₂⟩ :: r) :=
        .of_front rfl (by decide)
      rw [List.cons_append, List.append_assoc, List.singleton_append, statement?_return,
        if_neg hsemicolon, expression?_tokens e hl₂ hends, Stmt.tree?]
      split
      · rfl
      · cases e.tree? h <;> simp

/-- Spelled statements are read as what they mean, up to the brace behind them. -/
theorem statements?_tokens (ss : List Stmt) {ls : List Lexeme} (r : List Lexeme)
    (hl : ls.map Lexeme.token = statementsTokens ss ++ [Token.symbol .rightBrace]) :
    statements? h (ls ++ r) = (statementsTree? h ss).map fun body => (body, r) := by
  cases ss with
  | nil =>
    obtain ⟨o, rfl⟩ := spelled_singleton hl
    exact statements?_nil (by simp [frontKeyword?])
  | cons s ss =>
    rw [statementsTokens, List.append_assoc] at hl
    obtain ⟨ls₁, ls₂, rfl, hl₁, hl₂⟩ := spelled_append hl
    have hfront : (frontKeyword? (ls₁ ++ (ls₂ ++ r))).any startsStatement := by
      obtain ⟨k, tokens, hs, hk⟩ := tokens_of_stmt s
      obtain ⟨o, ls₃, rfl, -⟩ := spelled_cons (hl₁.trans hs)
      exact hk
    rw [List.append_assoc, statements?_cons hfront,
      statement?_tokens s (ls₂ ++ r) hl₁ (frontKeyword?_ne_else hl₂), statementsTree?]
    cases s.tree? h with
    | none => rfl
    | some first =>
      simp only [Option.map_some, Option.bind_some, statements?_tokens ss r hl₂]
      cases statementsTree? h ss <;> rfl

end

end JackToolchain.Jack
