import JackToolchain.Proofs.Jack.Derivation.Soundness
import JackToolchain.Proofs.Jack.Derivation.Statement

/-!
# Statements that are read are spelled

* `let_taken` to `return_taken`: one lemma for each kind of statement.
* `statements?_eq_some_iff`: **statements are read exactly where they are spelled and mean
  something**.
-/

namespace JackToolchain.Jack

open Grammar

variable {h : Header} {ts ls r : List Lexeme} {offset : Nat} {v : Statement}
  {vs : List Statement}

/-- What is taken off some tokens is an expression between two symbols that means
something. -/
def EnclosedTaken (h : Header) (left right : Punctuation) (ts : List Lexeme) (v : Expression)
    (r : List Lexeme) : Prop :=
  ∃ (e : Expr) (ls : List Lexeme), ts = ls ++ r ∧
    ls.map Lexeme.token = .symbol left :: (e.tokens ++ [Token.symbol right]) ∧ e.tree? h = some v

/-- What is taken off some tokens is a statement that means something. -/
def StatementTaken (h : Header) (ts : List Lexeme) (v : Statement) (r : List Lexeme) : Prop :=
  ∃ (s : Stmt) (ls : List Lexeme), ts = ls ++ r ∧ ls.map Lexeme.token = s.tokens ∧
    s.tree? h = some v

/-- What is taken off some tokens are statements that mean something, and a brace. -/
def StatementsTaken (h : Header) (ts : List Lexeme) (vs : List Statement) (r : List Lexeme) :
    Prop :=
  ∃ (ss : List Stmt) (ls : List Lexeme), ts = ls ++ r ∧
    ls.map Lexeme.token = statementsTokens ss ++ [Token.symbol .rightBrace] ∧
    statementsTree? h ss = some vs

@[inherit_doc StatementsTaken]
def BlockTaken (h : Header) (ts : List Lexeme) (vs : List Statement) (r : List Lexeme) : Prop :=
  ∃ (ss : List Stmt) (ls : List Lexeme), ts = ls ++ r ∧
    ls.map Lexeme.token = braced (statementsTokens ss) ∧ statementsTree? h ss = some vs

/-- Whatever statements are taken off fewer tokens are spelled by the grammar. -/
def StatementsSoundBelow (h : Header) (ts : List Lexeme) : Prop :=
  ∀ us : List Lexeme, us.length < ts.length →
    ∀ vs r, statements? h us = some (vs, r) → StatementsTaken h us vs r

theorem StatementsSoundBelow.mono (ih : StatementsSoundBelow h ts) {us : List Lexeme}
    (hle : us.length ≤ ts.length) : StatementsSoundBelow h us :=
  fun ws hws => ih ws (Nat.lt_of_lt_of_le hws hle)

/-! ## Parts of statements -/

theorem enclosed_taken {left right : Punctuation} {e : Expression}
    (hr : enclosed? h left right ts = some (e, r)) : EnclosedTaken h left right ts e r := by
  rw [enclosed?_eq] at hr
  obtain ⟨r₁, hleft, hr⟩ := Option.bind_eq_some_iff.1 hr
  obtain ⟨⟨e, r₂⟩, he, hr⟩ := Option.bind_eq_some_iff.1 hr
  obtain ⟨r₃, hright, hr⟩ := Option.bind_eq_some_iff.1 hr
  cases hr
  obtain ⟨o₁, rfl⟩ := behind?_eq_some_iff.1 hleft
  obtain ⟨o₂, rfl⟩ := behind?_eq_some_iff.1 hright
  obtain ⟨t, ls, rfl, hl, ht, -⟩ := expression?_eq_some_iff.1 he
  exact ⟨t, ⟨.symbol left, o₁⟩ :: (ls ++ [⟨.symbol right, o₂⟩]), by simp, by simp [hl], ht⟩

theorem EnclosedTaken.length_lt {left right : Punctuation} {e : Expression}
    (ht : EnclosedTaken h left right ts e r) : r.length < ts.length := by
  obtain ⟨e, ls, rfl, hl, -⟩ := ht
  have hlen := congrArg List.length hl
  rw [List.length_map, List.length_cons] at hlen
  rw [List.length_append]
  omega

theorem block_taken (ih : StatementsSoundBelow h ts) (hr : block? h ts = some (vs, r)) :
    BlockTaken h ts vs r := by
  rw [block?_eq] at hr
  obtain ⟨r₁, hbrace, hr⟩ := Option.bind_eq_some_iff.1 hr
  obtain ⟨o, rfl⟩ := behind?_eq_some_iff.1 hbrace
  obtain ⟨ss, ls, rfl, hl, hss⟩ := ih r₁ (Nat.lt_succ_self _) vs r hr
  exact ⟨ss, ⟨.symbol .leftBrace, o⟩ :: ls, rfl, by rw [List.map_cons, hl, braced], hss⟩

theorem BlockTaken.length_lt (ht : BlockTaken h ts vs r) : r.length < ts.length := by
  obtain ⟨ss, ls, rfl, hl, -⟩ := ht
  have hlen := congrArg List.length hl
  rw [List.length_map, braced, List.length_cons] at hlen
  rw [List.length_append]
  omega

theorem eq_cons_of_frontKeyword? {k : Keyword} (hf : frontKeyword? ts = some k) :
    ∃ offset ts', ts = ⟨.keyword k, offset⟩ :: ts' := by
  unfold frontKeyword? at hf
  split at hf
  · cases hf
    exact ⟨_, _, rfl⟩
  · cases hf

theorem behindKeyword?_eq_some_iff {k : Keyword} :
    behindKeyword? k ts = some r ↔ ∃ offset, ts = ⟨.keyword k, offset⟩ :: r := by
  constructor
  · intro hk
    unfold behindKeyword? at hk
    split at hk
    · split at hk
      · cases hk
        subst k
        exact ⟨_, rfl⟩
      · cases hk
    · cases hk
  · rintro ⟨offset, rfl⟩
    simp

/-! ## Statements -/

theorem let_taken (hr : statement? h (⟨.keyword .let, offset⟩ :: ts) = some (v, r)) :
    StatementTaken h (⟨.keyword .let, offset⟩ :: ts) v r := by
  rw [statement?_let] at hr
  obtain ⟨⟨name, r₁⟩, hname, hrest⟩ := Option.bind_eq_some_iff.1 hr
  obtain ⟨w, hw, hassigned⟩ := Option.bind_eq_some_iff.1 hrest
  obtain rfl := name?_eq_some_iff.1 hname
  -- a bracket behind the name starts an index
  split at hassigned
  · obtain ⟨⟨index, r₂⟩, hindex, hlast⟩ := Option.bind_eq_some_iff.1 hassigned
    obtain ⟨⟨value, r₃⟩, hvalue, hlast⟩ := Option.bind_eq_some_iff.1 hlast
    cases hlast
    obtain ⟨i, ls₁, rfl, hl₁, hi⟩ := enclosed_taken hindex
    obtain ⟨e, ls₂, rfl, hl₂, he⟩ := enclosed_taken hvalue
    refine ⟨.assignElement name.text i e,
      ⟨.keyword .let, offset⟩ :: ⟨.identifier name.text, name.offset⟩ :: (ls₁ ++ ls₂), ?_, ?_, ?_⟩
    · simp
    · simp [Stmt.tokens, hl₁, hl₂]
    · simp [Stmt.tree?, hw, hi, he]
  · obtain ⟨⟨value, r₂⟩, hvalue, hlast⟩ := Option.bind_eq_some_iff.1 hassigned
    cases hlast
    obtain ⟨e, ls, rfl, hl, he⟩ := enclosed_taken hvalue
    refine ⟨.assign name.text e,
      ⟨.keyword .let, offset⟩ :: ⟨.identifier name.text, name.offset⟩ :: ls, ?_, ?_, ?_⟩
    · simp
    · simp [Stmt.tokens, hl]
    · simp [Stmt.tree?, hw, he]

theorem if_taken (ih : StatementsSoundBelow h (⟨.keyword .if, offset⟩ :: ts))
    (hr : statement? h (⟨.keyword .if, offset⟩ :: ts) = some (v, r)) :
    StatementTaken h (⟨.keyword .if, offset⟩ :: ts) v r := by
  rw [statement?_if] at hr
  obtain ⟨⟨condition, r₁⟩, hcondition, hr⟩ := Option.bind_eq_some_iff.1 hr
  obtain ⟨⟨body, r₂⟩, hbody, hend⟩ := Option.bind_eq_some_iff.1 hr
  dsimp only at hend
  -- the condition and the first block each take tokens, so the induction reaches both blocks
  have henclosed := enclosed_taken hcondition
  have hlen₁ := henclosed.length_lt
  have hblock := block_taken (ih.mono (by rw [List.length_cons]; omega)) hbody
  have hlen₂ := hblock.length_lt
  obtain ⟨e, ls₁, rfl, hl₁, he⟩ := henclosed
  obtain ⟨ss, ls₂, rfl, hl₂, hss⟩ := hblock
  split at hend
  · obtain ⟨r₃, helse, hblock⟩ := Option.bind_eq_some_iff.1 hend
    obtain ⟨⟨alternative, r₄⟩, halternative, hlast⟩ := Option.bind_eq_some_iff.1 hblock
    obtain ⟨o, rfl⟩ := behindKeyword?_eq_some_iff.1 helse
    cases hlast
    have hbelow : r₃.length ≤ (⟨.keyword .if, offset⟩ ::
        (ls₁ ++ (ls₂ ++ ⟨.keyword .else, o⟩ :: r₃)) : List Lexeme).length := by
      simp only [List.length_cons, List.length_append]
      omega
    obtain ⟨ss', ls₃, rfl, hl₃, hss'⟩ := block_taken (ih.mono hbelow) halternative
    refine ⟨.ifElse e ss ss',
      ⟨.keyword .if, offset⟩ :: (ls₁ ++ (ls₂ ++ ⟨.keyword .else, o⟩ :: ls₃)), ?_, ?_, ?_⟩
    · simp
    · simp [Stmt.tokens, hl₁, hl₂, hl₃]
    · simp [Stmt.tree?, he, hss, hss']
  · cases hend
    refine ⟨.ifThen e ss, ⟨.keyword .if, offset⟩ :: (ls₁ ++ ls₂), ?_, ?_, ?_⟩
    · simp
    · simp [Stmt.tokens, hl₁, hl₂]
    · simp [Stmt.tree?, he, hss]

theorem while_taken (ih : StatementsSoundBelow h (⟨.keyword .while, offset⟩ :: ts))
    (hr : statement? h (⟨.keyword .while, offset⟩ :: ts) = some (v, r)) :
    StatementTaken h (⟨.keyword .while, offset⟩ :: ts) v r := by
  rw [statement?_while] at hr
  obtain ⟨⟨condition, r₁⟩, hcondition, hr⟩ := Option.bind_eq_some_iff.1 hr
  obtain ⟨⟨body, r₂⟩, hbody, hr⟩ := Option.bind_eq_some_iff.1 hr
  cases hr
  have henclosed := enclosed_taken hcondition
  have hlen := henclosed.length_lt
  obtain ⟨ss, ls₂, rfl, hl₂, hss⟩ := block_taken (ih.mono (by rw [List.length_cons]; omega)) hbody
  obtain ⟨e, ls₁, rfl, hl₁, he⟩ := henclosed
  refine ⟨.while e ss, ⟨.keyword .while, offset⟩ :: (ls₁ ++ ls₂), ?_, ?_, ?_⟩
  · simp
  · simp [Stmt.tokens, hl₁, hl₂]
  · simp [Stmt.tree?, he, hss]

theorem do_taken (hr : statement? h (⟨.keyword .do, offset⟩ :: ts) = some (v, r)) :
    StatementTaken h (⟨.keyword .do, offset⟩ :: ts) v r := by
  rw [statement?_do] at hr
  obtain ⟨⟨⟨target, name, arguments⟩, r₁⟩, hcall, hr⟩ := Option.bind_eq_some_iff.1 hr
  obtain ⟨r₂, hsemicolon, hr⟩ := Option.bind_eq_some_iff.1 hr
  cases hr
  obtain ⟨o, rfl⟩ := behind?_eq_some_iff.1 hsemicolon
  obtain ⟨c, es, ls, rfl, hl, hc, hes⟩ := call_taken (fun us _ => sound h us) hcall
  refine ⟨.call c es, ⟨.keyword .do, offset⟩ :: (ls ++ [⟨.symbol .semicolon, o⟩]), ?_, ?_, ?_⟩
  · simp
  · simp [Stmt.tokens, hl]
  · simp [Stmt.tree?, hc, hes]

theorem return_taken (hr : statement? h (⟨.keyword .return, offset⟩ :: ts) = some (v, r)) :
    StatementTaken h (⟨.keyword .return, offset⟩ :: ts) v r := by
  rw [statement?_return] at hr
  split at hr
  · obtain ⟨r₁, hsemicolon, hr⟩ := Option.bind_eq_some_iff.1 hr
    cases hr
    obtain ⟨o, rfl⟩ := behind?_eq_some_iff.1 hsemicolon
    exact ⟨.return none, [_, _], rfl, rfl, rfl⟩
  split at hr
  · cases hr
  · next hvoid =>
    obtain ⟨⟨value, r₁⟩, hvalue, hr⟩ := Option.bind_eq_some_iff.1 hr
    obtain ⟨r₂, hsemicolon, hr⟩ := Option.bind_eq_some_iff.1 hr
    cases hr
    obtain ⟨o, rfl⟩ := behind?_eq_some_iff.1 hsemicolon
    obtain ⟨e, ls, rfl, hl, he, -⟩ := expression?_eq_some_iff.1 hvalue
    refine ⟨.return (some e),
      ⟨.keyword .return, offset⟩ :: (ls ++ [⟨.symbol .semicolon, o⟩]), ?_, ?_, ?_⟩
    · simp
    · simp [Stmt.tokens, hl]
    · simp [Stmt.tree?, hvoid, he]

theorem statement_taken (ih : StatementsSoundBelow h ts)
    (hf : (frontKeyword? ts).any startsStatement) (hr : statement? h ts = some (v, r)) :
    StatementTaken h ts v r := by
  obtain ⟨k, hk, hstarts⟩ := (Option.any_eq_true _ _).1 hf
  obtain ⟨offset, ts, rfl⟩ := eq_cons_of_frontKeyword? hk
  cases k with
  | «let» => exact let_taken hr
  | «if» => exact if_taken ih hr
  | «while» => exact while_taken ih hr
  | «do» => exact do_taken hr
  | «return» => exact return_taken hr
  | _ => cases hstarts

theorem statements_taken (h : Header) (ts : List Lexeme) :
    ∀ vs r, statements? h ts = some (vs, r) → StatementsTaken h ts vs r := by
  induction hn : ts.length using Nat.strongRecOn generalizing ts with
  | _ n ih =>
    subst hn
    -- for blocks inside the first statement and for the statements behind it
    have hbelow : StatementsSoundBelow h ts := fun us hus => ih _ hus us rfl
    intro vs r hr
    by_cases hf : (frontKeyword? ts).any startsStatement
    · rw [statements?_cons hf] at hr
      obtain ⟨⟨v, r₁⟩, hfirst, hr⟩ := Option.bind_eq_some_iff.1 hr
      obtain ⟨⟨others, r₂⟩, hothers, hr⟩ := Option.bind_eq_some_iff.1 hr
      cases hr
      have hlen : r₁.length < ts.length := length_lt_of_taken? hfirst
      obtain ⟨s, ls₁, rfl, hl₁, hs⟩ := statement_taken hbelow hf hfirst
      obtain ⟨ss, ls₂, rfl, hl₂, hss⟩ := hbelow r₁ hlen _ _ hothers
      refine ⟨s :: ss, ls₁ ++ ls₂, by rw [List.append_assoc], ?_,
        by simp [statementsTree?, hs, hss]⟩
      rw [List.map_append, hl₁, hl₂, statementsTokens, List.append_assoc]
    · rw [statements?_nil hf] at hr
      obtain ⟨r₁, hbrace, hr⟩ := Option.bind_eq_some_iff.1 hr
      cases hr
      obtain ⟨o, rfl⟩ := behind?_eq_some_iff.1 hbrace
      exact ⟨[], [_], rfl, rfl, rfl⟩

/-- **Statements are read by the grammar.** The reader takes statements and the brace behind
them exactly where the tokens spell ones that mean something. -/
theorem statements?_eq_some_iff : statements? h ts = some (vs, r) ↔ StatementsTaken h ts vs r := by
  constructor
  · exact statements_taken h ts vs r
  · rintro ⟨ss, ls, rfl, hl, hss⟩
    rw [statements?_tokens ss r hl, hss]
    rfl

end JackToolchain.Jack
