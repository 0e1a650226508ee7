import JackToolchain.Jack.Reading.Expression
import JackToolchain.Proofs.Jack.Lookahead.Basic

/-!
# How far the readers of expressions look

Each reader is its rule, built from the readers of its parts. The proof goes by the number of
tokens, over all the readers at once.

* `LocalExpressions`: the readers of expressions settle their outcome locally.
* `localExpressions`: they all do.
-/

namespace JackToolchain.Jack

variable {h : Header} {r : List Lexeme}

/-- The readers of expressions settle their outcome by the tokens that they take and by the
one behind them. -/
structure LocalExpressions (h : Header) (r : List Lexeme) : Prop where
  term : Local (.reader (readTerm h)) r
  operations : ∀ left, Local (fun _ _ r hr => readOperations h ⟨left, r, hr⟩) r
  expression : Local (.reader (readExpression h)) r
  call : ∀ head, Local (.reader (readCall h head)) r
  arguments : Local (.reader (readArguments h)) r
  moreArguments : Local (.reader (readMoreArguments h)) r

/-- The readers of expressions settle their outcome locally on fewer tokens. -/
def LocalBelow (h : Header) (r : List Lexeme) : Prop :=
  ∀ s : List Lexeme, s.length < r.length → LocalExpressions h s

theorem onToken_checkString (value : String) : OnToken (checkString value) := by
  unfold checkString
  by_cases hsize : maxConstant < utf16Size value.toList
  · exact .inr ⟨.stringTooLong (utf16Size value.toList), rfl, fun o => if_pos hsize⟩
  · simp only [if_neg hsize]
    cases value.toList.find? (maxConstant < ·.toNat) with
    | some c => exact .inr ⟨.unsupportedCharacter c, rfl, fun o => rfl⟩
    | none => exact .inl ⟨(), fun o => rfl⟩

theorem local_callee (head : CallHead) : Local (.reader (readCallee h head)) r := by
  apply Local.congr
  · intro o ts s hs hfront
    rw [Rest.reader, readCallee.eq_def, hfront.frontSymbol?]
  by_cases hf : ∃ name, head = .named name ∧ frontSymbol? r = some .leftParen
  · obtain ⟨name, rfl, hf⟩ := hf
    rw [hf]
    exact .bind (local_symbol ..) fun _ rest _ => .pure _ rest
  · simp only [not_exists, not_and] at hf
    -- the first case of the match is out
    simp only
    refine .bind (local_symbol ..) fun _ rest _ => ?_
    refine .seq_identifier fun text rest _ => ?_
    dsimp only
    exact .seq (local_symbol ..) fun _ rest _ => .pure _ rest

theorem local_call (ih : LocalBelow h r) (head : CallHead) :
    Local (.reader (readCall h head)) r := by
  unfold Rest.reader readCall
  refine .bind (local_callee head) fun callee rest hlen => ?_
  exact .seq (ih rest hlen).arguments fun arguments rest _ => .pure _ rest

theorem local_expression (ih : LocalBelow h r) (hterm : Local (.reader (readTerm h)) r) :
    Local (.reader (readExpression h)) r := by
  unfold Rest.reader readExpression
  exact .bind hterm fun left rest hlen => (ih rest hlen).operations left

theorem local_arguments (ih : LocalBelow h r)
    (hexpression : Local (.reader (readExpression h)) r) :
    Local (.reader (readArguments h)) r := by
  apply Local.congr
  · intro o ts s hs hfront
    rw [Rest.reader, readArguments, hfront.frontSymbol?]
  by_cases hf : frontSymbol? r = some .rightParen
  · rw [hf]
    exact .bind (local_symbol ..) fun _ rest _ => .pure _ rest
  · simp only
    refine .bind hexpression fun first rest hlen => ?_
    dsimp only
    refine .seq (ih rest hlen).moreArguments fun others rest _ => ?_
    exact .pure (first :: others) rest

theorem local_moreArguments (ih : LocalBelow h r) :
    Local (.reader (readMoreArguments h)) r := by
  apply Local.congr
  · intro o ts s hs hfront
    rw [Rest.reader, readMoreArguments, hfront.frontSymbol?]
  by_cases hf : frontSymbol? r = some .comma
  · rw [hf]
    refine .bind (local_symbol ..) fun _ rest₁ hlen₁ => ?_
    refine .seq (ih rest₁ hlen₁).expression fun e rest₂ hlen₂ => ?_
    have hlen : rest₂.length < r.length := Nat.lt_trans hlen₂ hlen₁
    exact .seq (ih rest₂ hlen).moreArguments fun others rest _ => .pure _ rest
  · simp only
    exact .bind (local_symbol ..) fun _ rest _ => .pure _ rest

theorem local_operations (ih : LocalBelow h r) (left : Expression) :
    Local (fun _ _ r hr => readOperations h ⟨left, r, hr⟩) r := by
  cases hop : (frontSymbol? r).bind BinaryOperator.ofSymbol? with
  | none =>
    apply Local.congr
    · intro o ts s hs hfront
      rw [readOperations, hfront.frontSymbol?, hop]
    exact .pure left r
  | some operator =>
    cases r with
    | nil => cases hop
    | cons l r =>
      obtain ⟨token, offset⟩ := l
      refine .cons (L := fun _ ts r hr => within hr (readTerm h r) >>= fun t =>
        readOperations h ⟨.binary left operator t.value, t.rest, t.shorter⟩) ?_ ?_
      · intro o ts o₁ rest hr
        refine ⟨ts, Nat.lt_trans (Nat.lt_succ_self _) hr, ?_⟩
        have hfront : SameFront (⟨token, o₁⟩ :: rest) (⟨token, offset⟩ :: r) := rfl
        rw [readOperations, hfront.frontSymbol?, hop]
        simp only [next, bind, Except.bind]
        cases readTerm h rest <;> rfl
      · refine .seq (ih r (Nat.lt_succ_self _)).term fun right rest hlen => ?_
        dsimp only
        exact (ih rest (Nat.lt_succ_of_lt hlen)).operations _

theorem local_identifier {name : String} {offset : Nat}
    (ih : LocalBelow h (⟨.identifier name, offset⟩ :: r)) :
    Local (.reader (readTerm h)) (⟨.identifier name, offset⟩ :: r) := by
  unfold Rest.reader readTerm
  refine .bind_next ?_
  dsimp only
  apply Local.congr
  · intro o ts s hs hfront
    rw [hfront.frontSymbol?]
  have hcall := (ih r (Nat.lt_succ_self _)).call (.named name)
  -- the symbol behind a name says what starts with it
  by_cases hbracket : frontSymbol? r = some .leftBracket
  · rw [hbracket]
    refine .check (onToken_resolve h.scope name) fun array => ?_
    refine .seq (local_symbol ..) fun _ rest hlen => ?_
    refine .seq (ih rest (Nat.lt_succ_of_lt hlen)).expression fun index rest _ => ?_
    dsimp only
    exact .seq (local_symbol ..) fun _ rest _ => .pure _ rest
  by_cases hparen : frontSymbol? r = some .leftParen
  · rw [hparen]
    exact .seq hcall fun v rest _ => .pure (Expression.call v.1 v.2.1 v.2.2) rest
  by_cases hdot : frontSymbol? r = some .dot
  · rw [hdot]
    exact .seq hcall fun v rest _ => .pure (Expression.call v.1 v.2.1 v.2.2) rest
  · simp only
    exact .check (onToken_resolve h.scope name) fun v => .pure _ r

theorem local_this {offset : Nat} (ih : LocalBelow h (⟨.keyword .this, offset⟩ :: r)) :
    Local (.reader (readTerm h)) (⟨.keyword .this, offset⟩ :: r) := by
  unfold Rest.reader readTerm
  refine .bind_next (.check (onToken_allowThis h) fun _ => ?_)
  apply Local.congr
  · intro o ts s hs hfront
    rw [hfront.frontSymbol?]
  by_cases hdot : frontSymbol? r = some .dot
  · rw [hdot]
    exact .seq ((ih r (Nat.lt_succ_self _)).call CallHead.this) fun _ rest _ => .pure _ rest
  · simp only
    exact .pure Expression.this r

theorem local_term (ih : LocalBelow h r) : Local (.reader (readTerm h)) r := by
  cases r with
  | nil => exact .atEnd .term fun o ts hts => by rw [Rest.reader, bare_within, readTerm]; rfl
  | cons l r =>
    obtain ⟨token, offset⟩ := l
    cases token with
    | integer value =>
      unfold Rest.reader readTerm
      exact .bind_next (.pure _ r)
    | string value =>
      unfold Rest.reader readTerm
      exact .bind_next (.check (onToken_checkString value) fun _ => .pure _ r)
    | identifier name => exact local_identifier ih
    | keyword k =>
      cases k with
      | this => exact local_this ih
      | «true» =>
        unfold Rest.reader readTerm
        exact .bind_next (.pure _ r)
      | «false» =>
        unfold Rest.reader readTerm
        exact .bind_next (.pure _ r)
      | null =>
        unfold Rest.reader readTerm
        exact .bind_next (.pure _ r)
      | _ => exact .refused .term fun o ts o₁ rest hr => by rw [Rest.reader, readTerm]; rfl
    | symbol s =>
      cases s with
      | leftParen =>
        unfold Rest.reader readTerm
        refine .bind_next (.seq (ih r (Nat.lt_succ_self _)).expression fun e rest _ => ?_)
        exact .seq (local_symbol ..) fun _ rest _ => .pure _ rest
      | minus =>
        unfold Rest.reader readTerm
        exact .bind_next (.seq (ih r (Nat.lt_succ_self _)).term fun e rest _ => .pure _ rest)
      | tilde =>
        unfold Rest.reader readTerm
        exact .bind_next (.seq (ih r (Nat.lt_succ_self _)).term fun e rest _ => .pure _ rest)
      | _ => exact .refused .term fun o ts o₁ rest hr => by rw [Rest.reader, readTerm]; rfl

/-- All readers of expressions settle their outcome locally. -/
theorem localExpressions (h : Header) (r : List Lexeme) : LocalExpressions h r := by
  -- each reader goes on with others on the same tokens or on fewer
  induction hn : r.length using Nat.strongRecOn generalizing r with
  | _ n ih =>
    subst hn
    have ih' : LocalBelow h r := fun s hs => ih _ hs s rfl
    have hterm := local_term ih'
    have hexpression := local_expression ih' hterm
    exact ⟨hterm, local_operations ih', hexpression, local_call ih',
      local_arguments ih' hexpression, local_moreArguments ih'⟩

end JackToolchain.Jack
