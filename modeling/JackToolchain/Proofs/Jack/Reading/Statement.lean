import JackToolchain.Proofs.Jack.Reading.Expression

/-!
# What the readers of statements take

* `statements?`, `statement?`, `block?`: the partial functions.
* `statement?_let` to `statement?_return`: an equation for each kind of statement.
-/

namespace JackToolchain.Jack

variable {ts r : List Lexeme} (h : Header)

/-- What `readEnclosed` takes. -/
def enclosed? (left right : Punctuation) (ts : List Lexeme) :
    Option (Expression × List Lexeme) :=
  taken? (readEnclosed h left right ts)

/-- What `readBlock` takes. -/
def block? (ts : List Lexeme) : Option (List Statement × List Lexeme) :=
  taken? (readBlock h ts)

/-- What `readStatement` takes. -/
def statement? (ts : List Lexeme) : Option (Statement × List Lexeme) :=
  taken? (readStatement h ts)

/-- What `readStatements` takes. -/
def statements? (ts : List Lexeme) : Option (List Statement × List Lexeme) :=
  taken? (readStatements h ts)

variable {h}

theorem enclosed?_eq (left right : Punctuation) (ts : List Lexeme) :
    enclosed? h left right ts = (behind? left ts).bind fun r₁ =>
      (expression? h r₁).bind fun (e, r₂) =>
        (behind? right r₂).bind fun r₃ => some (e, r₃) := by
  rw [enclosed?, readEnclosed]
  exact taken?_bind_unit (taken?_symbol ..) fun r₁ h₁ =>
    taken?_bind (taken?_within h₁ _) fun e r₂ h₂ =>
      taken?_bind_unit ((taken?_within h₂ _).trans (taken?_symbol ..)) fun r₃ h₃ => rfl

theorem block?_eq (ts : List Lexeme) :
    block? h ts = (behind? .leftBrace ts).bind (statements? h) := by
  rw [block?, readBlock]
  exact taken?_bind_unit (taken?_symbol ..) fun r h₁ => taken?_within h₁ _

theorem statements?_cons (hf : (frontKeyword? ts).any startsStatement) :
    statements? h ts = (statement? h ts).bind fun (s, r₁) =>
      (statements? h r₁).bind fun (others, r₂) => some (s :: others, r₂) := by
  rw [statements?, readStatements, if_pos hf]
  exact taken?_bind rfl fun s r₁ h₁ => taken?_bind (taken?_within h₁ _) fun others r₂ h₂ => rfl

theorem statements?_nil (hf : ¬ (frontKeyword? ts).any startsStatement) :
    statements? h ts = (behind? .rightBrace ts).bind fun r => some ([], r) := by
  rw [statements?, readStatements, if_neg hf]
  exact taken?_bind_unit (taken?_symbol ..) fun r h₁ => rfl

section statement

variable {offset : Nat}

theorem statement?_let : statement? h (⟨.keyword .let, offset⟩ :: r) =
    (name? r).bind fun (name, r₁) => (h.scope.find? name.text).bind fun v =>
      if frontSymbol? r₁ = some .leftBracket then
        (enclosed? h .leftBracket .rightBracket r₁).bind fun (index, r₂) =>
          (enclosed? h .equal .semicolon r₂).bind fun (value, r₃) =>
            some (.assignElement v index value, r₃)
      else (enclosed? h .equal .semicolon r₁).bind fun (value, r₂) => some (.assign v value, r₂) := by
  have h₀ : r.length < (⟨.keyword .let, offset⟩ :: r : List Lexeme).length := Nat.lt_succ_self _
  rw [statement?, readStatement]
  refine (taken?_within h₀ (readLet h r)).trans ?_
  rw [readLet]
  refine taken?_bind (taken?_identifier ..) fun name r₁ h₁ => ?_
  refine taken?_check.trans ?_
  rw [toOption_resolve]
  refine congrArg _ (funext fun v => ?_)
  split
  · next hf =>
    rw [if_pos hf]
    exact taken?_bind (taken?_within h₁ _) fun index r₂ h₂ =>
      taken?_bind (taken?_within h₂ _) fun value r₃ h₃ => rfl
  · next hf =>
    rw [if_neg hf]
    exact taken?_bind (taken?_within h₁ _) fun value r₂ h₂ => rfl

theorem statement?_if : statement? h (⟨.keyword .if, offset⟩ :: r) =
    (enclosed? h .leftParen .rightParen r).bind fun (condition, r₁) =>
      (block? h r₁).bind fun (body, r₂) =>
        if frontKeyword? r₂ = some .else then
          (behindKeyword? .else r₂).bind fun r₃ =>
            (block? h r₃).bind fun (alternative, r₄) =>
              some (.ifElse condition body alternative, r₄)
        else some (.ifThen condition body, r₂) := by
  have h₀ : r.length < (⟨.keyword .if, offset⟩ :: r : List Lexeme).length := Nat.lt_succ_self _
  rw [statement?, readStatement]
  refine (taken?_within h₀ (readIf h r)).trans ?_
  rw [readIf]
  refine taken?_bind rfl fun condition r₁ h₁ => ?_
  refine taken?_bind (taken?_within h₁ _) fun body r₂ h₂ => ?_
  dsimp only
  split
  · next hf =>
    rw [if_pos hf]
    exact taken?_bind_unit ((taken?_within h₂ _).trans (taken?_keyword ..)) fun r₃ h₃ =>
      taken?_bind (taken?_within h₃ _) fun alternative r₄ h₄ => rfl
  · next hf => rw [if_neg hf]; rfl

theorem statement?_while : statement? h (⟨.keyword .while, offset⟩ :: r) =
    (enclosed? h .leftParen .rightParen r).bind fun (condition, r₁) =>
      (block? h r₁).bind fun (body, r₂) => some (.while condition body, r₂) := by
  have h₀ : r.length < (⟨.keyword .while, offset⟩ :: r : List Lexeme).length :=
    Nat.lt_succ_self _
  rw [statement?, readStatement]
  refine (taken?_within h₀ (readWhile h r)).trans ?_
  rw [readWhile]
  exact taken?_bind rfl fun condition r₁ h₁ =>
    taken?_bind (taken?_within h₁ _) fun body r₂ h₂ => rfl

theorem statement?_do : statement? h (⟨.keyword .do, offset⟩ :: r) =
    (wholeCall? h r).bind fun ((target, name, arguments), r₁) =>
      (behind? .semicolon r₁).bind fun r₂ => some (.call target name arguments, r₂) := by
  have h₀ : r.length < (⟨.keyword .do, offset⟩ :: r : List Lexeme).length := Nat.lt_succ_self _
  rw [statement?, readStatement]
  refine (taken?_within h₀ (readDo h r)).trans ?_
  rw [readDo, wholeCall?, Option.bind_assoc]
  refine taken?_bind rfl fun head r₁ h₁ => taken?_bind (taken?_within h₁ _) ?_
  rintro ⟨target, name, arguments⟩ r₂ h₂
  exact taken?_bind_unit ((taken?_within h₂ _).trans (taken?_symbol ..)) fun r₃ h₃ => rfl

theorem statement?_return : statement? h (⟨.keyword .return, offset⟩ :: r) =
    if frontSymbol? r = some .semicolon then
      (behind? .semicolon r).bind fun r₁ => some (.return none, r₁)
    else if h.isVoid then none
    else (expression? h r).bind fun (value, r₁) =>
      (behind? .semicolon r₁).bind fun r₂ => some (.return (some value), r₂) := by
  have h₀ : r.length < (⟨.keyword .return, offset⟩ :: r : List Lexeme).length :=
    Nat.lt_succ_self _
  rw [statement?, readStatement]
  refine (taken?_within h₀ (readReturn h r)).trans ?_
  rw [readReturn]
  split
  · next hf =>
    rw [if_pos hf]
    exact taken?_bind_unit (taken?_symbol ..) fun r₁ h₁ => rfl
  · next hf =>
    rw [if_neg hf]
    split
    · rfl
    · exact taken?_bind rfl fun value r₁ h₁ =>
        taken?_bind_unit ((taken?_within h₁ _).trans (taken?_symbol ..)) fun r₂ h₂ => rfl

end statement

end JackToolchain.Jack
