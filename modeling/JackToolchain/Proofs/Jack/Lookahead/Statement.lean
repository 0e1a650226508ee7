import JackToolchain.Jack.Reading.Statement
import JackToolchain.Proofs.Jack.Lookahead.Expression

/-!
# How far the readers of statements look

* `LocalStatements`: the readers of statements and of blocks settle their outcome locally.
* `localStatements`: they all do.
-/

namespace JackToolchain.Jack

variable {h : Header}

theorem local_enclosed (left right : Punctuation) (r : List Lexeme) :
    Local (.reader (readEnclosed h left right)) r := by
  unfold Rest.reader readEnclosed
  refine .bind (local_symbol ..) fun _ rest _ => ?_
  refine .seq (localExpressions h rest).expression fun e rest _ => ?_
  dsimp only
  exact .seq (local_symbol ..) fun _ rest _ => .pure _ rest

theorem local_let (r : List Lexeme) : Local (.reader (readLet h)) r := by
  unfold Rest.reader readLet
  refine .bind_identifier fun name rest _ => ?_
  refine .check (onToken_resolve h.scope name) fun target => ?_
  dsimp only
  apply Local.congr
  · intro o ts s hs hfront
    rw [hfront.frontSymbol?]
  by_cases hf : frontSymbol? rest = some .leftBracket
  · rw [hf]
    refine .seq (local_enclosed ..) fun index rest _ => ?_
    dsimp only
    refine .seq (local_enclosed ..) fun value rest _ => ?_
    exact .pure (Statement.assignElement target index value) rest
  · simp only
    refine .seq (local_enclosed ..) fun value rest _ => ?_
    exact .pure (Statement.assign target value) rest

theorem local_callHead (r : List Lexeme) : Local (.reader (readCallHead h)) r := by
  cases r with
  | nil => exact .atEnd .subroutineCall fun o ts hr => rfl
  | cons l r =>
    obtain ⟨token, offset⟩ := l
    cases token with
    | identifier name =>
      unfold Rest.reader readCallHead
      exact .bind_next (.pure _ r)
    | keyword k =>
      cases k with
      | this =>
        unfold Rest.reader readCallHead
        exact .bind_next (.check (onToken_allowThis h) fun _ => .pure _ r)
      | _ => exact .refused .subroutineCall fun o ts o₁ rest hr => rfl
    | _ => exact .refused .subroutineCall fun o ts o₁ rest hr => rfl

theorem local_do (r : List Lexeme) : Local (.reader (readDo h)) r := by
  unfold Rest.reader readDo
  refine .bind (local_callHead r) fun head rest _ => ?_
  refine .seq ((localExpressions h rest).call head) fun call rest _ => ?_
  dsimp only
  exact .seq (local_symbol ..) fun _ rest _ => .pure _ rest

theorem local_return (r : List Lexeme) : Local (.reader (readReturn h)) r := by
  apply Local.congr
  · intro o ts s hs hfront
    rw [Rest.reader, readReturn.eq_def, hfront.frontSymbol?]
  by_cases hf : frontSymbol? r = some .semicolon
  · rw [hf]
    exact .bind (local_symbol ..) fun _ rest _ => .pure _ rest
  · simp only
    by_cases hv : h.isVoid
    · simp only [hv, if_true]
      exact .unexpected _ r
    · simp only [hv]
      refine .bind (localExpressions h r).expression fun value rest _ => ?_
      dsimp only
      exact .seq (local_symbol ..) fun _ rest _ => .pure _ rest

/-- The readers of statements settle their outcome by the tokens that they take and by the
one behind them. -/
structure LocalStatements (h : Header) (r : List Lexeme) : Prop where
  statements : Local (.reader (readStatements h)) r
  block : Local (.reader (readBlock h)) r

/-- The readers of statements settle their outcome locally on fewer tokens. -/
def LocalStatementsBelow (h : Header) (r : List Lexeme) : Prop :=
  ∀ s : List Lexeme, s.length < r.length → LocalStatements h s

theorem local_block {r : List Lexeme} (ih : LocalStatementsBelow h r) :
    Local (.reader (readBlock h)) r := by
  unfold Rest.reader readBlock
  exact .bind (local_symbol ..) fun _ rest hlen => (ih rest hlen).statements

theorem local_if {r : List Lexeme} (ih : LocalStatementsBelow h r) :
    Local (.reader (readIf h)) r := by
  unfold Rest.reader readIf
  refine .bind (local_enclosed ..) fun condition rest₁ hlen₁ => ?_
  refine .seq (ih rest₁ hlen₁).block fun body rest₂ hlen₂ => ?_
  dsimp only
  apply Local.congr
  · intro o ts s hs hfront
    rw [hfront.frontKeyword?]
  by_cases hf : frontKeyword? rest₂ = some .else
  · rw [hf]
    refine .seq (local_keyword ..) fun _ rest₃ hlen₃ => ?_
    have hlen : rest₃.length < r.length := by omega
    refine .seq (ih rest₃ hlen).block fun alternative rest _ => ?_
    exact .pure (Statement.ifElse condition body alternative) rest
  · simp only
    exact .pure _ rest₂

theorem local_while {r : List Lexeme} (ih : LocalStatementsBelow h r) :
    Local (.reader (readWhile h)) r := by
  unfold Rest.reader readWhile
  refine .bind (local_enclosed ..) fun condition rest hlen => ?_
  dsimp only
  refine .seq (ih rest hlen).block fun body rest _ => ?_
  exact .pure (Statement.while condition body) rest

theorem local_statement {r : List Lexeme} (ih : LocalStatementsBelow h r) :
    Local (.reader (readStatement h)) r := by
  cases r with
  | nil => exact .atEnd .term fun o ts hr => by rw [Rest.reader, bare_within, readStatement]; rfl
  | cons l r =>
    obtain ⟨token, offset⟩ := l
    have ih' : LocalStatementsBelow h r := fun s hs => ih s (Nat.lt_succ_of_lt hs)
    unfold Rest.reader readStatement
    refine .bind_next ?_
    cases token with
    | keyword k =>
      cases k with
      | «let» => exact local_let r
      | «if» => exact local_if ih'
      | «while» => exact local_while ih'
      | «do» => exact local_do r
      | _ => exact local_return r
    | _ => exact local_return r

theorem local_statements {r : List Lexeme} (ih : LocalStatementsBelow h r) :
    Local (.reader (readStatements h)) r := by
  apply Local.congr
  · intro o ts s hs hfront
    rw [Rest.reader, readStatements, hfront.frontKeyword?]
  by_cases hf : (frontKeyword? r).any startsStatement
  · simp only [hf, if_true]
    refine .bind (local_statement ih) fun s rest hlen => ?_
    dsimp only
    refine .seq (ih rest hlen).statements fun others rest _ => ?_
    exact .pure (s :: others) rest
  · simp only [hf]
    exact .bind (local_symbol ..) fun _ rest _ => .pure _ rest

/-- All readers of statements settle their outcome locally. -/
theorem localStatements (h : Header) (r : List Lexeme) : LocalStatements h r := by
  induction hn : r.length using Nat.strongRecOn generalizing r with
  | _ n ih =>
    subst hn
    have ih' : LocalStatementsBelow h r := fun s hs => ih _ hs s rfl
    exact ⟨local_statements ih', local_block ih'⟩

end JackToolchain.Jack
