import JackToolchain.Proofs.Jack.Derivation.Expression

/-!
# What is read is spelled

Every expression that is read stands on tokens that the grammar spells, and it is what they
mean. The proof goes by the number of tokens, over all the readers at once.

* `Sound`: whatever is taken off some tokens is spelled by the grammar.
* `expression?_eq_some_iff`: **what is read is exactly what is spelled and means something**.
* `tree?_of_expression?`: what is read is what any spelling of its tokens means.
-/

namespace JackToolchain.Jack

open Grammar

variable {h : Header} {ts ls r : List Lexeme} {tokens : List Token}

/-- What is taken off some tokens is a term that means something and ends there. -/
def TermTaken (h : Header) (ts : List Lexeme) (v : Expression) (r : List Lexeme) : Prop :=
  ∃ (t : Term) (ls : List Lexeme), ts = ls ++ r ∧ ls.map Lexeme.token = t.tokens ∧
    t.tree? h = some v ∧ TermEnds t.tokens r

@[inherit_doc TermTaken]
def ExprTaken (h : Header) (ts : List Lexeme) (v : Expression) (r : List Lexeme) : Prop :=
  ∃ (e : Expr) (ls : List Lexeme), ts = ls ++ r ∧ ls.map Lexeme.token = e.tokens ∧
    e.tree? h = some v ∧ ExprEnds e.tokens r

@[inherit_doc TermTaken]
def ChainTaken (h : Header) (left : Expression) (ts : List Lexeme) (v : Expression)
    (r : List Lexeme) : Prop :=
  ∃ (c : Chain) (ls : List Lexeme), ts = ls ++ r ∧ ls.map Lexeme.token = c.tokens ∧
    c.tree? h left = some v ∧ ExprEnds c.tokens r

/-- What is taken off some tokens are arguments that mean something, and a parenthesis. -/
def ArgumentsTaken (h : Header) (spell : List Expr → List Token) (ts : List Lexeme)
    (vs : List Expression) (r : List Lexeme) : Prop :=
  ∃ (es : List Expr) (ls : List Lexeme), ts = ls ++ r ∧
    ls.map Lexeme.token = spell es ++ [Token.symbol .rightParen] ∧ argumentsTree? h es = some vs

/-- What is taken off some tokens is a call that means something. -/
def CallTaken (h : Header) (ts : List Lexeme) (v : Target × String × List Expression)
    (r : List Lexeme) : Prop :=
  ∃ (c : Callee) (es : List Expr) (ls : List Lexeme), ts = ls ++ r ∧
    ls.map Lexeme.token =
      c.tokens ++ .symbol .leftParen :: (argumentsTokens es ++ [Token.symbol .rightParen]) ∧
    c.resolve h = some (v.1, v.2.1) ∧ argumentsTree? h es = some v.2.2

/-- Whatever is taken off some tokens is spelled by the grammar. -/
structure Sound (h : Header) (ts : List Lexeme) : Prop where
  term : ∀ v r, term? h ts = some (v, r) → TermTaken h ts v r
  expression : ∀ v r, expression? h ts = some (v, r) → ExprTaken h ts v r
  operations : ∀ left v r, operations? h (left, ts) = some (v, r) → ChainTaken h left ts v r
  arguments : ∀ vs r, arguments? h ts = some (vs, r) → ArgumentsTaken h argumentsTokens ts vs r
  moreArguments : ∀ vs r, moreArguments? h ts = some (vs, r) →
    ArgumentsTaken h moreTokens ts vs r

/-- Whatever is taken off fewer tokens is spelled by the grammar. -/
def SoundBelow (h : Header) (ts : List Lexeme) : Prop :=
  ∀ us : List Lexeme, us.length < ts.length → Sound h us

theorem SoundBelow.tail {l : Lexeme} (ih : SoundBelow h (l :: ts)) : Sound h ts :=
  ih ts (Nat.lt_succ_self _)

theorem eq_cons_of_frontSymbol? {s : Punctuation} (hf : frontSymbol? ts = some s) :
    ∃ offset ts', ts = ⟨.symbol s, offset⟩ :: ts' := by
  unfold frontSymbol? at hf
  split at hf
  · cases hf
    exact ⟨_, _, rfl⟩
  · cases hf

theorem callHead_taken {head : CallHead} (hr : callHead? h ts = some (head, r)) :
    (∃ name offset, head = .named name ∧ ts = ⟨.identifier name, offset⟩ :: r) ∨
      (head = .this ∧ h.hasObject ∧ ∃ offset, ts = ⟨.keyword .this, offset⟩ :: r) := by
  cases ts with
  | nil => cases hr
  | cons l ts =>
    obtain ⟨token, offset⟩ := l
    cases token with
    | identifier name =>
      cases hr
      exact .inl ⟨name, offset, rfl, rfl⟩
    | keyword k =>
      cases k with
      | this =>
        rw [callHead?_this] at hr
        split at hr
        · next ho =>
          cases hr
          exact .inr ⟨rfl, ho, offset, rfl⟩
        · cases hr
      | _ => cases hr
    | _ => cases hr

theorem calleeRest_taken {head : CallHead} {callee : Target × String}
    (hr : callee? h head ts = some (callee, r)) :
    (∃ name offset, head = .named name ∧ callee = (.self, name) ∧
        ts = ⟨.symbol .leftParen, offset⟩ :: r) ∨
      ∃ name o₁ o₂ o₃, callee = (head.target h.scope, name) ∧
        ts = ⟨.symbol .dot, o₁⟩ :: ⟨.identifier name, o₂⟩ :: ⟨.symbol .leftParen, o₃⟩ :: r := by
  by_cases hf : head = .this ∨ frontSymbol? ts ≠ some .leftParen
  · rw [callee?_dot hf] at hr
    obtain ⟨r₁, hdot, hr⟩ := Option.bind_eq_some_iff.1 hr
    obtain ⟨⟨name, r₂⟩, hname, hr⟩ := Option.bind_eq_some_iff.1 hr
    obtain ⟨r₃, hparen, hr⟩ := Option.bind_eq_some_iff.1 hr
    obtain ⟨o₁, rfl⟩ := behind?_eq_some_iff.1 hdot
    obtain rfl := name?_eq_some_iff.1 hname
    obtain ⟨o₃, rfl⟩ := behind?_eq_some_iff.1 hparen
    cases hr
    exact .inr ⟨name.text, o₁, name.offset, o₃, rfl, rfl⟩
  · obtain ⟨hhead, hparen⟩ := not_or.1 hf
    have hfront := Decidable.not_not.1 hparen
    cases head with
    | this => exact absurd rfl hhead
    | named name =>
      rw [callee?_bare hfront] at hr
      obtain ⟨r₁, hparen, hr⟩ := Option.bind_eq_some_iff.1 hr
      obtain ⟨o, rfl⟩ := behind?_eq_some_iff.1 hparen
      cases hr
      exact .inl ⟨name, o, rfl, rfl, rfl⟩

/-- What stands before the arguments of a call. -/
theorem callee_taken {callee : Target × String}
    (hr : (callHead? h ts).bind (fun (head, r₁) => callee? h head r₁) = some (callee, r)) :
    ∃ (c : Callee) (ls : List Lexeme), ts = ls ++ r ∧
      ls.map Lexeme.token = c.tokens ++ [Token.symbol .leftParen] ∧ c.resolve h = some callee := by
  obtain ⟨⟨head, r₁⟩, hhead, hcallee⟩ := Option.bind_eq_some_iff.1 hr
  obtain ⟨name, o, rfl, rfl⟩ | ⟨rfl, ho, o, rfl⟩ := callHead_taken hhead
  · obtain ⟨_, o₁, ⟨⟩, rfl, rfl⟩ | ⟨member, o₁, o₂, o₃, rfl, rfl⟩ := calleeRest_taken hcallee
    · exact ⟨.bare name, [_, _], rfl, rfl, rfl⟩
    · exact ⟨.member name member, [_, _, _, _], rfl, rfl, Callee.resolve_member⟩
  · obtain ⟨_, o₁, ⟨⟩, rfl, rfl⟩ | ⟨member, o₁, o₂, o₃, rfl, rfl⟩ := calleeRest_taken hcallee
    exact ⟨.this member, [_, _, _, _], rfl, rfl, by simp [Callee.resolve, ho, CallHead.target]⟩

theorem call_taken {v : Target × String × List Expression}
    (ih : SoundBelow h ts) (hr : wholeCall? h ts = some (v, r)) : CallTaken h ts v r := by
  rw [wholeCall?_eq] at hr
  obtain ⟨⟨⟨target, name⟩, r₁⟩, hcallee, hr⟩ := Option.bind_eq_some_iff.1 hr
  obtain ⟨⟨arguments, r₂⟩, harguments, hr⟩ := Option.bind_eq_some_iff.1 hr
  cases hr
  obtain ⟨c, ls₁, rfl, hl₁, hc⟩ := callee_taken hcallee
  -- what stands before the arguments has at least the parenthesis
  have hlen : r₁.length < (ls₁ ++ r₁).length := by
    have hlen := congrArg List.length hl₁
    rw [List.length_map, List.length_append, List.length_singleton] at hlen
    rw [List.length_append]
    omega
  obtain ⟨es, ls₂, rfl, hl₂, hes⟩ := (ih r₁ hlen).arguments _ _ harguments
  refine ⟨c, es, ls₁ ++ ls₂, by rw [List.append_assoc], ?_, hc, hes⟩
  rw [List.map_append, hl₁, hl₂, List.append_assoc]; rfl

/-- A call is a term. -/
theorem CallTaken.term {v : Target × String × List Expression} (hc : CallTaken h ts v r) :
    TermTaken h ts (.call v.1 v.2.1 v.2.2) r := by
  obtain ⟨c, es, ls, rfl, hl, hc, hes⟩ := hc
  exact ⟨.call c es, ls, rfl, hl, by simp [Term.tree?, hc, hes],
    .of_symbol (c.tokens ++ .symbol .leftParen :: argumentsTokens es) .rightParen
      (by simp [Term.tokens])⟩

theorem identifier_taken {v : Expression} {name : String} {offset : Nat}
    (ih : SoundBelow h (⟨.identifier name, offset⟩ :: ts))
    (hr : term? h (⟨.identifier name, offset⟩ :: ts) = some (v, r)) :
    TermTaken h (⟨.identifier name, offset⟩ :: ts) v r := by
  -- the symbol behind a name says what starts with it
  by_cases hbracket : frontSymbol? ts = some .leftBracket
  · rw [term?_element hbracket] at hr
    obtain ⟨array, harray, hr⟩ := Option.bind_eq_some_iff.1 hr
    obtain ⟨r₁, hleft, hr⟩ := Option.bind_eq_some_iff.1 hr
    obtain ⟨⟨index, r₂⟩, hindex, hr⟩ := Option.bind_eq_some_iff.1 hr
    obtain ⟨r₃, hright, hr⟩ := Option.bind_eq_some_iff.1 hr
    cases hr
    obtain ⟨o₁, rfl⟩ := behind?_eq_some_iff.1 hleft
    obtain ⟨o₃, rfl⟩ := behind?_eq_some_iff.1 hright
    have hlen : r₁.length < (⟨.identifier name, offset⟩ :: ⟨.symbol .leftBracket, o₁⟩ :: r₁ :
        List Lexeme).length := by
      simp only [List.length_cons]
      omega
    obtain ⟨e, ls, rfl, hl, he, -⟩ := (ih r₁ hlen).expression _ _ hindex
    refine ⟨.element name e, ⟨.identifier name, offset⟩ :: ⟨.symbol .leftBracket, o₁⟩ ::
      (ls ++ [⟨.symbol .rightBracket, o₃⟩]), by simp, by simp [Term.tokens, hl],
      by simp [Term.tree?, harray, he],
      .of_symbol (.identifier name :: .symbol .leftBracket :: e.tokens) .rightBracket
        (by simp [Term.tokens])⟩
  by_cases hcall : frontSymbol? ts = some .leftParen ∨ frontSymbol? ts = some .dot
  · rw [term?_call hcall] at hr
    obtain ⟨⟨⟨target, member, arguments⟩, r₁⟩, hwhole, hr⟩ := Option.bind_eq_some_iff.1 hr
    cases hr
    exact (call_taken ih hwhole).term
  · obtain ⟨hparen, hdot⟩ := not_or.1 hcall
    rw [term?_variable hbracket hparen hdot] at hr
    obtain ⟨w, hw, hr⟩ := Option.bind_eq_some_iff.1 hr
    cases hr
    refine ⟨.name name, [_], rfl, rfl, by simp [Term.tree?, hw], ?_, nofun⟩
    intro _ _
    simp [hbracket, hparen, hdot]

theorem keyword_taken {v : Expression} {k : Keyword} {offset : Nat}
    (ih : SoundBelow h (⟨.keyword k, offset⟩ :: ts))
    (hr : term? h (⟨.keyword k, offset⟩ :: ts) = some (v, r)) :
    TermTaken h (⟨.keyword k, offset⟩ :: ts) v r := by
  cases k with
  | «true» =>
    rw [term?_true] at hr
    cases hr
    exact ⟨.true, [_], rfl, rfl, rfl, .of_last rfl nofun nofun⟩
  | «false» =>
    rw [term?_false] at hr
    cases hr
    exact ⟨.false, [_], rfl, rfl, rfl, .of_last rfl nofun nofun⟩
  | null =>
    rw [term?_null] at hr
    cases hr
    exact ⟨.null, [_], rfl, rfl, rfl, .of_last rfl nofun nofun⟩
  | this =>
    by_cases hdot : frontSymbol? ts = some .dot
    · rw [term?_this_dot hdot] at hr
      obtain ⟨⟨⟨target, member, arguments⟩, r₁⟩, hwhole, hr⟩ := Option.bind_eq_some_iff.1 hr
      cases hr
      exact (call_taken ih hwhole).term
    · rw [term?_this hdot] at hr
      split at hr
      · next ho =>
        cases hr
        exact ⟨.this, [_], rfl, rfl, by rw [Term.tree?, if_pos ho], nofun, fun _ => hdot⟩
      · cases hr
  | _ => rw [term?_eq_none rfl] at hr; cases hr

theorem symbol_taken {v : Expression} {s : Punctuation} {offset : Nat}
    (ih : SoundBelow h (⟨.symbol s, offset⟩ :: ts))
    (hr : term? h (⟨.symbol s, offset⟩ :: ts) = some (v, r)) :
    TermTaken h (⟨.symbol s, offset⟩ :: ts) v r := by
  cases s with
  | leftParen =>
    rw [term?_enclosed] at hr
    obtain ⟨⟨w, r₁⟩, hinner, hr⟩ := Option.bind_eq_some_iff.1 hr
    obtain ⟨r₂, hright, hr⟩ := Option.bind_eq_some_iff.1 hr
    cases hr
    obtain ⟨o₂, rfl⟩ := behind?_eq_some_iff.1 hright
    obtain ⟨e, ls, rfl, hl, he, -⟩ := ih.tail.expression _ _ hinner
    exact ⟨.enclosed e, ⟨.symbol .leftParen, offset⟩ :: (ls ++ [⟨.symbol .rightParen, o₂⟩]),
      by simp, by simp [Term.tokens, hl], by simp [Term.tree?, he],
      .of_symbol (.symbol .leftParen :: e.tokens) .rightParen (by simp [Term.tokens])⟩
  | minus =>
    rw [term?_negate] at hr
    obtain ⟨⟨w, r₁⟩, hoperand, hr⟩ := Option.bind_eq_some_iff.1 hr
    cases hr
    obtain ⟨t, ls, rfl, hl, ht, hends⟩ := ih.tail.term _ _ hoperand
    exact ⟨.negate t, ⟨.symbol .minus, offset⟩ :: ls, rfl, by simp [Term.tokens, hl],
      by simp [Term.tree?, ht],
      (termEnds_append_iff [.symbol .minus] (term_tokens_ne_nil t)).2 hends⟩
  | tilde =>
    rw [term?_invert] at hr
    obtain ⟨⟨w, r₁⟩, hoperand, hr⟩ := Option.bind_eq_some_iff.1 hr
    cases hr
    obtain ⟨t, ls, rfl, hl, ht, hends⟩ := ih.tail.term _ _ hoperand
    exact ⟨.invert t, ⟨.symbol .tilde, offset⟩ :: ls, rfl, by simp [Term.tokens, hl],
      by simp [Term.tree?, ht],
      (termEnds_append_iff [.symbol .tilde] (term_tokens_ne_nil t)).2 hends⟩
  | _ => rw [term?_eq_none rfl] at hr; cases hr

theorem term_taken {v : Expression}
    (ih : SoundBelow h ts) (hr : term? h ts = some (v, r)) : TermTaken h ts v r := by
  cases ts with
  | nil => rw [term?_nil] at hr; cases hr
  | cons l ts =>
    obtain ⟨token, offset⟩ := l
    cases token with
    | integer value =>
      rw [term?_integer] at hr
      cases hr
      exact ⟨.integer value, [_], rfl, rfl, rfl, .of_last rfl nofun nofun⟩
    | string value =>
      rw [term?_string] at hr
      split at hr
      · next hw =>
        cases hr
        exact ⟨.string value, [_], rfl, rfl, by rw [Term.tree?, if_pos hw],
          .of_last rfl nofun nofun⟩
      · cases hr
    | identifier name => exact identifier_taken ih hr
    | keyword k => exact keyword_taken ih hr
    | symbol s => exact symbol_taken ih hr

section sound

variable {v left : Expression} {vs : List Expression}

theorem expression_taken (ih : SoundBelow h ts)
    (hr : expression? h ts = some (v, r)) : ExprTaken h ts v r := by
  rw [expression?_eq] at hr
  obtain ⟨⟨left, r₁⟩, hterm, hr⟩ := Option.bind_eq_some_iff.1 hr
  obtain ⟨t, ls₁, hts, hl₁, ht, hends⟩ := term_taken ih hterm
  obtain ⟨c, ls₂, rfl, hl₂, hc, hends₂⟩ :=
    (ih r₁ (length_lt_of_taken? hterm)).operations _ _ _ hr
  exact ⟨.mk t c, ls₁ ++ ls₂, by rw [hts, List.append_assoc],
    by rw [List.map_append, hl₁, hl₂, Expr.tokens], by simp [Expr.tree?, ht, hc],
    hends.chain hl₂ hends₂.toTermEnds, hends₂.operator⟩

theorem operations_taken (ih : SoundBelow h ts)
    (hr : operations? h (left, ts) = some (v, r)) : ChainTaken h left ts v r := by
  rw [operations?_eq] at hr
  cases hop : (frontSymbol? ts).bind BinaryOperator.ofSymbol? with
  | none =>
    rw [hop] at hr
    cases hr
    exact ⟨.nil, [], rfl, rfl, rfl, ⟨nofun, nofun⟩, hop⟩
  | some operator =>
    rw [hop] at hr
    obtain ⟨s, hs, hsymbol⟩ := Option.bind_eq_some_iff.1 hop
    obtain rfl := BinaryOperator.ofSymbol?_eq_some_iff.1 hsymbol
    obtain ⟨o, ts₁, rfl⟩ := eq_cons_of_frontSymbol? hs
    obtain ⟨⟨right, r₁⟩, hterm, hr⟩ := Option.bind_eq_some_iff.1 hr
    obtain ⟨t, ls₁, hts, hl₁, ht, hends⟩ :=
      ih.tail.term _ _ hterm
    have hlen := length_lt_of_taken? hterm
    obtain ⟨c, ls₂, rfl, hl₂, hc, hends₂⟩ :=
      (ih r₁ (Nat.lt_succ_of_lt hlen)).operations _ _ _ hr
    refine ⟨.cons operator t c, ⟨.symbol operator.symbol, o⟩ :: (ls₁ ++ ls₂),
      by rw [hts, List.cons_append, List.append_assoc], ?_, by simp [Chain.tree?, ht, hc],
      ?_, hends₂.operator⟩
    · rw [List.map_cons, List.map_append, hl₁, hl₂, Chain.tokens]
    · have hchain := hends.chain hl₂ hends₂.toTermEnds
      have hne : t.tokens ++ c.tokens ≠ [] := by simp [term_tokens_ne_nil t]
      exact (termEnds_append_iff [.symbol operator.symbol] hne).2 hchain

theorem arguments_taken (ih : SoundBelow h ts)
    (hr : arguments? h ts = some (vs, r)) : ArgumentsTaken h argumentsTokens ts vs r := by
  by_cases hf : frontSymbol? ts = some .rightParen
  · rw [arguments?_none hf] at hr
    obtain ⟨r₁, hparen, hr⟩ := Option.bind_eq_some_iff.1 hr
    obtain ⟨o, rfl⟩ := behind?_eq_some_iff.1 hparen
    cases hr
    exact ⟨[], [⟨.symbol .rightParen, o⟩], rfl, rfl, rfl⟩
  · rw [arguments?_some hf] at hr
    obtain ⟨⟨first, r₁⟩, hfirst, hr⟩ := Option.bind_eq_some_iff.1 hr
    obtain ⟨⟨others, r₂⟩, hothers, hr⟩ := Option.bind_eq_some_iff.1 hr
    cases hr
    obtain ⟨e, ls₁, rfl, hl₁, he, -⟩ := expression_taken ih hfirst
    obtain ⟨es, ls₂, rfl, hl₂, hes⟩ :=
      (ih r₁ (length_lt_of_taken? hfirst)).moreArguments _ _ hothers
    refine ⟨e :: es, ls₁ ++ ls₂, by rw [List.append_assoc], ?_, by simp [argumentsTree?, he, hes]⟩
    rw [List.map_append, hl₁, hl₂, argumentsTokens, List.append_assoc]

theorem moreArguments_taken (ih : SoundBelow h ts)
    (hr : moreArguments? h ts = some (vs, r)) : ArgumentsTaken h moreTokens ts vs r := by
  by_cases hf : frontSymbol? ts = some .comma
  · rw [moreArguments?_comma hf] at hr
    obtain ⟨r₁, hcomma, hr⟩ := Option.bind_eq_some_iff.1 hr
    obtain ⟨⟨first, r₂⟩, hfirst, hr⟩ := Option.bind_eq_some_iff.1 hr
    obtain ⟨⟨others, r₃⟩, hothers, hr⟩ := Option.bind_eq_some_iff.1 hr
    cases hr
    obtain ⟨o, rfl⟩ := behind?_eq_some_iff.1 hcomma
    obtain ⟨e, ls₁, rfl, hl₁, he, -⟩ := ih.tail.expression _ _ hfirst
    have hlen := length_lt_of_taken? hfirst
    obtain ⟨es, ls₂, rfl, hl₂, hes⟩ :=
      (ih r₂ (Nat.lt_succ_of_lt hlen)).moreArguments _ _ hothers
    refine ⟨e :: es, ⟨.symbol .comma, o⟩ :: (ls₁ ++ ls₂),
      by rw [List.cons_append, List.append_assoc], ?_, by simp [argumentsTree?, he, hes]⟩
    rw [List.map_cons, List.map_append, hl₁, hl₂, moreTokens, List.cons_append,
      List.append_assoc]
  · rw [moreArguments?_end hf] at hr
    obtain ⟨r₁, hparen, hr⟩ := Option.bind_eq_some_iff.1 hr
    obtain ⟨o, rfl⟩ := behind?_eq_some_iff.1 hparen
    cases hr
    exact ⟨[], [⟨.symbol .rightParen, o⟩], rfl, rfl, rfl⟩

end sound

/-- Whatever the readers of expressions take is spelled by the grammar. -/
theorem sound (h : Header) (ts : List Lexeme) : Sound h ts := by
  -- each reader goes on with others on the same tokens or on fewer
  induction hn : ts.length using Nat.strongRecOn generalizing ts with
  | _ n ih =>
    subst hn
    have ih' : SoundBelow h ts := fun us hus => ih _ hus us rfl
    exact ⟨fun _ _ => term_taken ih', fun _ _ => expression_taken ih',
      fun _ _ _ => operations_taken ih', fun _ _ => arguments_taken ih',
      fun _ _ => moreArguments_taken ih'⟩

/-- **Expressions are read by the grammar.** The reader takes an expression exactly where
the tokens spell one that means something, up to where it ends. -/
theorem expression?_eq_some_iff {v : Expression} :
    expression? h ts = some (v, r) ↔ ExprTaken h ts v r := by
  constructor
  · exact (sound h ts).expression v r
  · rintro ⟨e, ls, rfl, hl, he, hends⟩
    rw [expression?_tokens e hl hends, he]
    rfl

/-- The tree of an expression depends on its tokens only. -/
theorem tree?_of_expression? {e : Expr} {v : Expression} (hl : ls.map Lexeme.token = e.tokens)
    (hr : expression? h (ls ++ r) = some (v, r)) : e.tree? h = some v := by
  obtain ⟨e', ls', happ, hl', -, hends⟩ := expression?_eq_some_iff.1 hr
  -- the tree that was read may be another one with the same tokens
  obtain rfl := List.append_cancel_right happ
  rw [← hl', hl] at hends
  rw [expression?_tokens e hl hends] at hr
  cases ht : e.tree? h with
  | none => rw [ht] at hr; cases hr
  | some w => rw [ht] at hr; cases hr; rfl

end JackToolchain.Jack
