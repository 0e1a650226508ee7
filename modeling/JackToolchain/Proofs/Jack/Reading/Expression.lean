import JackToolchain.Proofs.Jack.Reading.Basic

/-!
# What the readers of expressions take

Each rule of the grammar is one equation.

* `expression?`, `term?`, `call?`, `arguments?`: the partial functions.
* `term?_integer` to `term?_invert`: an equation for each kind of term.
-/

namespace JackToolchain.Jack

variable {ts us r : List Lexeme} (h : Header) (head : CallHead)

/-- What `readCallee` takes. -/
def callee? (ts : List Lexeme) : Option ((Target × String) × List Lexeme) :=
  taken? (readCallee h head ts)

/-- What `readExpression` takes. -/
def expression? (ts : List Lexeme) : Option (Expression × List Lexeme) :=
  taken? (readExpression h ts)

/-- What `readOperations` takes behind an expression. -/
def operations? (left : Expression × List Lexeme) : Option (Expression × List Lexeme) :=
  taken? (@readOperations h (⟨.symbol .dot, 0⟩ :: left.2) ⟨left.1, left.2, Nat.lt_succ_self _⟩)

/-- What `readTerm` takes. -/
def term? (ts : List Lexeme) : Option (Expression × List Lexeme) :=
  taken? (readTerm h ts)

/-- What `readCallHead` takes. -/
def callHead? (ts : List Lexeme) : Option (CallHead × List Lexeme) :=
  taken? (readCallHead h ts)

/-- What `readCall` takes. -/
def call? (ts : List Lexeme) : Option ((Target × String × List Expression) × List Lexeme) :=
  taken? (readCall h head ts)

/-- What `readCallHead` and then `readCall` take. -/
def wholeCall? (ts : List Lexeme) : Option ((Target × String × List Expression) × List Lexeme) :=
  (callHead? h ts).bind fun (head, r) => call? h head r

/-- What `readArguments` takes. -/
def arguments? (ts : List Lexeme) : Option (List Expression × List Lexeme) :=
  taken? (readArguments h ts)

/-- What `readMoreArguments` takes. -/
def moreArguments? (ts : List Lexeme) : Option (List Expression × List Lexeme) :=
  taken? (readMoreArguments h ts)

variable {h head}

theorem term?_nil : term? h [] = none := by
  rw [term?, readTerm]; rfl

/-- The operators behind an expression are applied one after the other, whatever was read
before them. -/
theorem taken?_readOperations (left : Taken Expression ts) :
    taken? (readOperations h left) =
      match (frontSymbol? left.rest).bind BinaryOperator.ofSymbol? with
      | none => some (left.value, left.rest)
      | some operator => (term? h left.rest.tail).bind fun (right, rest) =>
        operations? h (.binary left.value operator right, rest) := by
  induction hn : left.rest.length using Nat.strongRecOn generalizing ts with
  | _ n ih =>
    subst hn
    have hlater {us : List Lexeme} (later : Taken Expression us)
        (hr : later.rest.length < left.rest.length) :
        taken? (readOperations h later) = operations? h (later.value, later.rest) := by
      obtain ⟨padded, hp⟩ : ∃ padded : Taken Expression (⟨.symbol .dot, 0⟩ :: later.rest),
          padded = ⟨later.value, later.rest, Nat.lt_succ_self _⟩ := ⟨_, rfl⟩
      have hpadded := ih _ hr padded (by rw [hp])
      rw [ih _ hr later rfl, operations?, ← hp, hpadded, hp]
    rw [readOperations]
    cases (frontSymbol? left.rest).bind BinaryOperator.ofSymbol? with
    | none => rfl
    | some operator =>
      have hfirst : taken? (next .term left.rest) = left.rest.head?.map fun l => (l, left.rest.tail) :=
        taken?_next ..
      refine (taken?_bind (g := fun (_, r₁) => (term? h r₁).bind fun (right, rest) =>
        operations? h (.binary left.value operator right, rest)) hfirst fun l r₁ h₁ =>
          taken?_bind (taken?_within h₁ _) fun right rest hr => ?_).trans ?_
      · exact hlater (left.extend (.binary left.value operator right) hr) hr
      · cases left.rest with
        | nil => rw [List.tail_nil, term?_nil]; rfl
        | cons l r => rfl

theorem operations?_eq (left : Expression) (ts : List Lexeme) : operations? h (left, ts) =
    match (frontSymbol? ts).bind BinaryOperator.ofSymbol? with
    | none => some (left, ts)
    | some operator => (term? h ts.tail).bind fun (right, rest) =>
      operations? h (.binary left operator right, rest) :=
  taken?_readOperations _

theorem expression?_eq (ts : List Lexeme) :
    expression? h ts = (term? h ts).bind (operations? h) := by
  rw [expression?, readExpression]
  exact taken?_bind rfl fun left rest hr =>
    (taken?_readOperations _).trans (operations?_eq left rest).symm

theorem callHead?_identifier {name : String} {offset : Nat} :
    callHead? h (⟨.identifier name, offset⟩ :: r) = some (.named name, r) := rfl

theorem callHead?_this {offset : Nat} : callHead? h (⟨.keyword .this, offset⟩ :: r) =
    if h.hasObject then some (.this, r) else none := by
  rw [callHead?, readCallHead]
  refine (taken?_check (x := allowThis h offset)).trans ?_
  rw [toOption_allowThis]
  split <;> rfl

theorem callee?_bare {name : String} (hf : frontSymbol? ts = some .leftParen) :
    callee? h (.named name) ts =
      (behind? .leftParen ts).bind fun r => some ((.self, name), r) := by
  rw [callee?, readCallee]
  · exact taken?_bind_unit (taken?_symbol ..) fun r hr => rfl
  · exact hf

theorem callee?_dot (hf : head = .this ∨ frontSymbol? ts ≠ some .leftParen) :
    callee? h head ts =
      (behind? .dot ts).bind fun r₁ => (name? r₁).bind fun (member, r₂) =>
        (behind? .leftParen r₂).bind fun r₃ => some ((head.target h.scope, member.text), r₃) := by
  rw [callee?, readCallee]
  · exact taken?_bind_unit (taken?_symbol ..) fun r₁ h₁ =>
      taken?_bind ((taken?_within h₁ _).trans (taken?_identifier ..)) fun member r₂ h₂ =>
        taken?_bind_unit ((taken?_within h₂ _).trans (taken?_symbol ..)) fun r₃ h₃ => rfl
  · rintro name rfl hl
    cases hf with
    | inl hf => cases hf
    | inr hf => exact hf hl

theorem call?_eq : call? h head ts =
    (callee? h head ts).bind fun ((target, name), r₁) =>
      (arguments? h r₁).bind fun (arguments, r₂) => some ((target, name, arguments), r₂) := by
  rw [call?, readCall]
  exact taken?_bind rfl fun (target, name) r₁ h₁ =>
    taken?_bind (taken?_within h₁ _) fun arguments r₂ h₂ => rfl

theorem wholeCall?_eq (ts : List Lexeme) : wholeCall? h ts =
    ((callHead? h ts).bind fun (head, r) => callee? h head r).bind fun ((target, name), r₁) =>
      (arguments? h r₁).bind fun (arguments, r₂) => some ((target, name, arguments), r₂) := by
  rw [Option.bind_assoc]
  simp only [wholeCall?, call?_eq]

theorem arguments?_none (hf : frontSymbol? ts = some .rightParen) :
    arguments? h ts = (behind? .rightParen ts).bind fun r => some ([], r) := by
  rw [arguments?, readArguments]
  split
  · exact taken?_bind_unit (taken?_symbol ..) fun r hr => rfl
  · next hn => exact absurd hf hn

theorem arguments?_some (hf : frontSymbol? ts ≠ some .rightParen) :
    arguments? h ts = (expression? h ts).bind fun (first, r₁) =>
      (moreArguments? h r₁).bind fun (others, r₂) => some (first :: others, r₂) := by
  rw [arguments?, readArguments]
  split
  · next hs => exact absurd hs hf
  · exact taken?_bind rfl fun first r₁ h₁ =>
      taken?_bind (taken?_within h₁ _) fun others r₂ h₂ => rfl

theorem moreArguments?_comma (hf : frontSymbol? ts = some .comma) :
    moreArguments? h ts = (behind? .comma ts).bind fun r₁ =>
      (expression? h r₁).bind fun (e, r₂) =>
        (moreArguments? h r₂).bind fun (others, r₃) => some (e :: others, r₃) := by
  rw [moreArguments?, readMoreArguments]
  split
  · exact taken?_bind_unit (taken?_symbol ..) fun r₁ h₁ =>
      taken?_bind (taken?_within h₁ _) fun e r₂ h₂ =>
        taken?_bind (taken?_within h₂ _) fun others r₃ h₃ => rfl
  · next hn => exact absurd hf hn

theorem moreArguments?_end (hf : frontSymbol? ts ≠ some .comma) :
    moreArguments? h ts = (behind? .rightParen ts).bind fun r => some ([], r) := by
  rw [moreArguments?, readMoreArguments]
  split
  · next hs => exact absurd hs hf
  · exact taken?_bind_unit (taken?_symbol ..) fun r hr => rfl

/-- Whether a term can start with a token. -/
def startsTerm : Token → Bool
  | .identifier _ | .integer _ | .string _ => true
  | .keyword k => k ∈ [.true, .false, .null, .this]
  | .symbol s => s ∈ [.leftParen, .minus, .tilde]

section term

variable {offset : Nat} {name : String}

theorem term?_integer {value : Nat} :
    term? h (⟨.integer value, offset⟩ :: r) = some (.integer value, r) := by
  rw [term?, readTerm]; rfl

theorem term?_string {value : String} :
    term? h (⟨.string value, offset⟩ :: r) =
      if isWritable value then some (.string value, r) else none := by
  rw [term?, readTerm]
  refine (taken?_check (x := checkString value offset)).trans ?_
  rw [toOption_checkString]
  split <;> rfl

theorem term?_true : term? h (⟨.keyword .true, offset⟩ :: r) = some (.true, r) := by
  rw [term?, readTerm]; rfl

theorem term?_false : term? h (⟨.keyword .false, offset⟩ :: r) = some (.false, r) := by
  rw [term?, readTerm]; rfl

theorem term?_null : term? h (⟨.keyword .null, offset⟩ :: r) = some (.null, r) := by
  rw [term?, readTerm]; rfl

theorem term?_this (hf : frontSymbol? r ≠ some .dot) :
    term? h (⟨.keyword .this, offset⟩ :: r) = if h.hasObject then some (.this, r) else none := by
  rw [term?, readTerm]
  refine (taken?_check (x := allowThis h offset)).trans ?_
  rw [toOption_allowThis]
  split
  · simp only [Option.bind_some]; rfl
  · rfl

theorem term?_this_dot (hf : frontSymbol? r = some .dot) :
    term? h (⟨.keyword .this, offset⟩ :: r) =
      (wholeCall? h (⟨.keyword .this, offset⟩ :: r)).bind
        fun ((target, member, arguments), r₁) => some (.call target member arguments, r₁) := by
  rw [term?, readTerm, wholeCall?, callHead?_this]
  refine (taken?_check (x := allowThis h offset)).trans ?_
  rw [toOption_allowThis]
  split
  · simp only [Option.bind_some]
    split
    · exact taken?_bind (taken?_within (Nat.lt_succ_self _) _) fun _ r₁ h₁ => rfl
    · next hn => exact absurd hf hn
  · rfl

theorem term?_variable (h₁ : frontSymbol? r ≠ some .leftBracket)
    (h₂ : frontSymbol? r ≠ some .leftParen) (h₃ : frontSymbol? r ≠ some .dot) :
    term? h (⟨.identifier name, offset⟩ :: r) =
      (h.scope.find? name).bind fun v => some (.variable v, r) := by
  rw [term?, readTerm]
  simp only [next, bind, Except.bind]
  refine (taken?_check (x := resolve h.scope ⟨name, offset⟩)).trans ?_
  rw [toOption_resolve]; rfl

theorem term?_element (hf : frontSymbol? r = some .leftBracket) :
    term? h (⟨.identifier name, offset⟩ :: r) =
      (h.scope.find? name).bind fun v => (behind? .leftBracket r).bind fun r₁ =>
        (expression? h r₁).bind fun (index, r₂) =>
          (behind? .rightBracket r₂).bind fun r₃ => some (.element v index, r₃) := by
  rw [term?, readTerm]
  simp only [next, hf, bind, Except.bind]
  refine (taken?_check (x := resolve h.scope ⟨name, offset⟩)).trans ?_
  rw [toOption_resolve]
  refine congrArg _ (funext fun v => ?_)
  have h₀ : r.length < (⟨.identifier name, offset⟩ :: r : List Lexeme).length :=
    Nat.lt_succ_self _
  exact taken?_bind_unit ((taken?_within h₀ _).trans (taken?_symbol ..)) fun r₁ h₁ =>
    taken?_bind (taken?_within h₁ _) fun index r₂ h₂ =>
      taken?_bind_unit ((taken?_within h₂ _).trans (taken?_symbol ..)) fun r₃ h₃ => rfl

theorem term?_call (hf : frontSymbol? r = some .leftParen ∨ frontSymbol? r = some .dot) :
    term? h (⟨.identifier name, offset⟩ :: r) =
      (wholeCall? h (⟨.identifier name, offset⟩ :: r)).bind
        fun ((target, member, arguments), r₁) => some (.call target member arguments, r₁) := by
  rw [wholeCall?, callHead?_identifier, Option.bind_some]
  have h₀ : r.length < (⟨.identifier name, offset⟩ :: r : List Lexeme).length :=
    Nat.lt_succ_self _
  rw [term?, readTerm]
  cases hf with
  | inl hf =>
    simp only [next, hf, bind, Except.bind]
    exact taken?_bind (taken?_within h₀ _) fun _ r₁ h₁ => rfl
  | inr hf =>
    simp only [next, hf, bind, Except.bind]
    exact taken?_bind (taken?_within h₀ _) fun _ r₁ h₁ => rfl

theorem term?_enclosed : term? h (⟨.symbol .leftParen, offset⟩ :: r) =
    (expression? h r).bind fun (e, r₁) => (behind? .rightParen r₁).bind fun r₂ => some (e, r₂) := by
  rw [term?, readTerm]
  exact taken?_bind (taken?_within (Nat.lt_succ_self _) _) fun e r₁ h₁ =>
    taken?_bind_unit ((taken?_within h₁ _).trans (taken?_symbol ..)) fun r₂ h₂ => rfl

theorem term?_negate : term? h (⟨.symbol .minus, offset⟩ :: r) =
    (term? h r).bind fun (e, r₁) => some (.negate e, r₁) := by
  rw [term?, readTerm]
  exact taken?_bind (taken?_within (Nat.lt_succ_self _) _) fun e r₁ h₁ => rfl

theorem term?_invert : term? h (⟨.symbol .tilde, offset⟩ :: r) =
    (term? h r).bind fun (e, r₁) => some (.invert e, r₁) := by
  rw [term?, readTerm]
  exact taken?_bind (taken?_within (Nat.lt_succ_self _) _) fun e r₁ h₁ => rfl

/-- No other token starts a term. -/
theorem term?_eq_none {token : Token} (ht : startsTerm token = false) :
    term? h (⟨token, offset⟩ :: r) = none := by
  rw [term?, readTerm]
  cases token with
  | keyword k => cases k <;> first | rfl | cases ht
  | symbol s => cases s <;> first | rfl | cases ht
  | _ => cases ht

end term

end JackToolchain.Jack
