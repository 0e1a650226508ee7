import JackToolchain.Proofs.Jack.Grammar.Class
import JackToolchain.Proofs.Jack.Reading.Statement

/-!
# What the readers of classes take

* `names?`, `variables?`, `parameters?`, `header?`: the partial functions, with an equation
  for each.
* `subroutines?`, `class?`: what is read to the end of the file.
-/

namespace JackToolchain.Jack

open Grammar

variable {ts r : List Lexeme} {α : Type}

/-- What `accept` takes. -/
def accepted? (value? : Token → Option α) : List Lexeme → Option (α × List Lexeme)
  | [] => none
  | l :: r => (value? l.token).map fun value => (value, r)

theorem taken?_accept (expected : Expected) (value? : Token → Option α) (ts : List Lexeme) :
    taken? (accept expected value? ts) = accepted? value? ts := by
  cases ts with
  | nil => rfl
  | cons l r =>
    simp only [accept, next, accepted?, bind, Except.bind]
    cases value? l.token <;> rfl

theorem toOption_declare (scope : Scope) (name : Name) (type : String) (kind : Kind) :
    (declare scope name type kind).toOption = scope.define name.text type kind := by
  unfold declare
  cases scope.define name.text type kind <;> rfl

/-! ## Declarations -/

section declarations

variable (type className : String) (kind : Kind) (kindOf? : Keyword → Option Kind) (scope : Scope)

/-- What `readNames` takes. -/
def names? (ts : List Lexeme) : Option (Scope × List Lexeme) :=
  taken? (readNames type kind scope ts)

/-- What `readVariables` takes behind some declarations. -/
def variables? (before : Scope × List Lexeme) : Option (Scope × List Lexeme) :=
  taken? (@readVariables kindOf? (⟨.symbol .dot, 0⟩ :: before.2)
    ⟨before.1, before.2, Nat.lt_succ_self _⟩)

/-- What `readSomeParameters` takes. -/
def someParameters? (ts : List Lexeme) : Option (Scope × List Lexeme) :=
  taken? (readSomeParameters scope ts)

/-- What `readParameters` takes. -/
def parameters? (ts : List Lexeme) : Option (Scope × List Lexeme) :=
  taken? (readParameters scope ts)

/-- What `readHeader` takes. -/
def header? (kind : SubroutineKind) (ts : List Lexeme) : Option (Header × List Lexeme) :=
  taken? (readHeader className scope kind ts)

variable {type className kind kindOf? scope}

theorem names?_eq (ts : List Lexeme) : names? type kind scope ts =
    (name? ts).bind fun (name, r₁) => (scope.define name.text type kind).bind fun scope =>
      if frontSymbol? r₁ = some .comma then
        (behind? .comma r₁).bind fun r₂ => names? type kind scope r₂
      else (behind? .semicolon r₁).bind fun r₂ => some (scope, r₂) := by
  rw [names?, readNames]
  refine taken?_bind (taken?_identifier ..) fun name r₁ h₁ => ?_
  refine taken?_check.trans ?_
  rw [toOption_declare]
  refine congrArg _ (funext fun scope => ?_)
  split
  · next hf =>
    rw [if_pos hf]
    exact taken?_bind_unit ((taken?_within h₁ _).trans (taken?_symbol ..)) fun r₂ h₂ =>
      taken?_within h₂ _
  · next hf =>
    rw [if_neg hf]
    exact taken?_bind_unit ((taken?_within h₁ _).trans (taken?_symbol ..)) fun r₂ h₂ => rfl

/-- Declarations are read one after the other, whatever was read before them. -/
theorem taken?_readVariables (before : Taken Scope ts) :
    taken? (readVariables kindOf? before) =
      match (frontKeyword? before.rest).bind kindOf? with
      | none => some (before.value, before.rest)
      | some kind => (accepted? variableType? before.rest.tail).bind fun (type, r) =>
        (names? type kind before.value r).bind (variables? kindOf?) := by
  induction hn : before.rest.length using Nat.strongRecOn generalizing ts with
  | _ n ih =>
    subst hn
    have hlater {us : List Lexeme} (later : Taken Scope us)
        (hr : later.rest.length < before.rest.length) :
        taken? (readVariables kindOf? later) = variables? kindOf? (later.value, later.rest) := by
      obtain ⟨padded, hp⟩ : ∃ padded : Taken Scope (⟨.symbol .dot, 0⟩ :: later.rest),
          padded = ⟨later.value, later.rest, Nat.lt_succ_self _⟩ := ⟨_, rfl⟩
      have hpadded := ih _ hr padded (by rw [hp])
      rw [ih _ hr later rfl, variables?, ← hp, hpadded, hp]
    rw [readVariables]
    cases (frontKeyword? before.rest).bind kindOf? with
    | none => rfl
    | some kind =>
      refine (taken?_bind (g := fun (_, r₁) => (accepted? variableType? r₁).bind fun (type, r₂) =>
        (names? type kind before.value r₂).bind (variables? kindOf?)) (taken?_next ..)
          fun l r₁ h₁ => taken?_bind ((taken?_within h₁ _).trans (taken?_accept ..))
            fun type r₂ h₂ => taken?_bind (taken?_within h₂ _) fun more r₃ h₃ => ?_).trans ?_
      · exact hlater (before.extend more h₃) h₃
      · cases before.rest <;> rfl

theorem variables?_eq (scope : Scope) (ts : List Lexeme) : variables? kindOf? (scope, ts) =
    match (frontKeyword? ts).bind kindOf? with
    | none => some (scope, ts)
    | some kind => (accepted? variableType? ts.tail).bind fun (type, r) =>
      (names? type kind scope r).bind (variables? kindOf?) :=
  taken?_readVariables _

theorem someParameters?_eq (ts : List Lexeme) : someParameters? scope ts =
    (accepted? variableType? ts).bind fun (type, r₁) => (name? r₁).bind fun (name, r₂) =>
      (scope.define name.text type .argument).bind fun scope =>
        if frontSymbol? r₂ = some .comma then
          (behind? .comma r₂).bind fun r₃ => someParameters? scope r₃
        else (behind? .rightParen r₂).bind fun r₃ => some (scope, r₃) := by
  rw [someParameters?, readSomeParameters]
  refine taken?_bind (taken?_accept ..) fun type r₁ h₁ => ?_
  refine taken?_bind ((taken?_within h₁ _).trans (taken?_identifier ..)) fun name r₂ h₂ => ?_
  refine taken?_check.trans ?_
  rw [toOption_declare]
  refine congrArg _ (funext fun scope => ?_)
  split
  · next hf =>
    rw [if_pos hf]
    exact taken?_bind_unit ((taken?_within h₂ _).trans (taken?_symbol ..)) fun r₃ h₃ =>
      taken?_within h₃ _
  · next hf =>
    rw [if_neg hf]
    exact taken?_bind_unit ((taken?_within h₂ _).trans (taken?_symbol ..)) fun r₃ h₃ => rfl

theorem parameters?_none (hf : frontSymbol? ts = some .rightParen) :
    parameters? scope ts = (behind? .rightParen ts).bind fun r => some (scope, r) := by
  rw [parameters?, readParameters]
  split
  · exact taken?_bind_unit (taken?_symbol ..) fun r hr => rfl
  · next hn => exact absurd hf hn

theorem parameters?_some (hf : frontSymbol? ts ≠ some .rightParen) :
    parameters? scope ts = someParameters? scope ts := by
  rw [parameters?, readParameters]
  split
  · next hs => exact absurd hs hf
  · rfl

/-- A method declares its object before its parameters. -/
theorem toOption_initialScope (kind : SubroutineKind) :
    (kind.initialScope className scope).toOption =
      declared? scope.leaveSubroutine (objectEntries className kind) := by
  cases kind with
  | method =>
    simp only [SubroutineKind.initialScope, objectEntries, declared?, List.foldlM_cons,
      List.foldlM_nil, toOption_declare]
    exact (Option.bind_fun_some _).symm
  | _ => rfl

theorem header?_cons {kind : SubroutineKind} {l : Lexeme} {ts : List Lexeme} :
    header? className scope kind (l :: ts) =
      (accepted? returnsVoid? ts).bind fun (isVoid, r₁) => (name? r₁).bind fun (name, r₂) =>
        (declared? scope.leaveSubroutine (objectEntries className kind)).bind fun scope =>
          (behind? .leftParen r₂).bind fun r₃ => (parameters? scope r₃).bind fun (scope, r₄) =>
            (behind? .leftBrace r₄).bind fun r₅ =>
              (variables? localKind? (scope, r₅)).bind fun (scope, r₆) =>
                some (⟨className, kind, isVoid, name.text, scope⟩, r₆) := by
  have h₀ : ts.length < (l :: ts).length := Nat.lt_succ_self _
  rw [header?, readHeader, ← toOption_initialScope]
  refine taken?_bind (x := within h₀ (accept .returnType returnsVoid? ts))
    ((taken?_within h₀ _).trans (taken?_accept ..)) fun isVoid r₁ h₁ => ?_
  refine taken?_bind ((taken?_within h₁ _).trans (taken?_identifier ..)) fun name r₂ h₂ => ?_
  refine taken?_check.trans (congrArg _ (funext fun scope => ?_))
  refine taken?_bind_unit ((taken?_within h₂ _).trans (taken?_symbol ..)) fun r₃ h₃ => ?_
  refine taken?_bind (taken?_within h₃ _) fun scope r₄ h₄ => ?_
  refine taken?_bind_unit ((taken?_within h₄ _).trans (taken?_symbol ..)) fun r₅ h₅ => ?_
  exact taken?_bind ((taken?_readVariables _).trans (variables?_eq ..).symm) fun scope r₆ h₆ => rfl

end declarations

/-! ## To the end of the file -/

section class_

variable {className : String} {scope : Scope} {kind : SubroutineKind}

/-- What `readSubroutines` reads. -/
def subroutines? (className : String) (scope : Scope) (ts : List Lexeme) :
    Option (List Subroutine) :=
  (readSubroutines className scope ts).outcome.toOption

/-- What `readClass` reads. -/
def class? (ts : List Lexeme) : Option ClassDecl :=
  (readClass ts).outcome.toOption

/-- What `readPreamble` takes. -/
def preamble? (ts : List Lexeme) : Option ((String × Scope) × List Lexeme) :=
  taken? (readPreamble ts)

theorem toOption_bind {β : Type} (x : Except Fault α) (f : α → Except Fault β) :
    (x >>= f).toOption = x.toOption.bind fun a => (f a).toOption := by
  cases x <;> rfl

theorem subroutines?_nil (hf : (frontKeyword? ts).bind SubroutineKind.ofKeyword? = none) :
    subroutines? className scope ts =
      (behind? .rightBrace ts).bind fun r => if r = [] then some [] else none := by
  rw [subroutines?, readSubroutines, hf]
  dsimp only
  rw [toOption_bind, readEnd]
  have hbrace := taken?_symbol .rightBrace ts
  cases hs : symbol .rightBrace ts with
  | error fault =>
    rw [hs, taken?_error] at hbrace
    rw [Option.map_eq_none_iff.1 hbrace.symm]; rfl
  | ok t =>
    obtain ⟨_, r, hr⟩ := t
    rw [hs, taken?_ok] at hbrace
    obtain ⟨r', hr', heq⟩ := Option.map_eq_some_iff.1 hbrace.symm
    cases heq
    rw [hr']
    cases r <;> rfl

theorem subroutines?_cons (hf : (frontKeyword? ts).bind SubroutineKind.ofKeyword? = some kind) :
    subroutines? className scope ts =
      (header? className scope kind ts).bind fun (header, r₁) =>
        (statements? header r₁).bind fun (body, r₂) =>
          (subroutines? className scope r₂).bind fun later => some (⟨header, body⟩ :: later) := by
  rw [subroutines?, readSubroutines, hf]
  dsimp only
  rw [header?]
  cases readHeader className scope kind ts with
  | error fault => rfl
  | ok t =>
    obtain ⟨header, r₁, h₁⟩ := t
    rw [taken?_ok, Option.bind_some]
    dsimp only
    rw [statements?, ← taken?_within h₁]
    cases within h₁ (readStatements header r₁) with
    | error fault => rfl
    | ok t => exact toOption_bind ..

theorem preamble?_eq (ts : List Lexeme) : preamble? ts =
    (behindKeyword? .class ts).bind fun r₁ => (name? r₁).bind fun (name, r₂) =>
      (behind? .leftBrace r₂).bind fun r₃ =>
        (variables? classKind? ({}, r₃)).bind fun (scope, r₄) => some ((name.text, scope), r₄) := by
  rw [preamble?, readPreamble]
  refine taken?_bind_unit (taken?_keyword ..) fun r₁ h₁ => ?_
  refine taken?_bind ((taken?_within h₁ _).trans (taken?_identifier ..)) fun name r₂ h₂ => ?_
  refine taken?_bind_unit ((taken?_within h₂ _).trans (taken?_symbol ..)) fun r₃ h₃ => ?_
  exact taken?_bind ((taken?_readVariables _).trans (variables?_eq ..).symm) fun scope r₄ h₄ => rfl

theorem class?_eq (ts : List Lexeme) : class? ts =
    (preamble? ts).bind fun ((name, scope), r) =>
      (subroutines? name scope r).bind fun subroutines => some ⟨name, scope, subroutines⟩ := by
  rw [class?, readClass, preamble?]
  cases readPreamble ts with
  | error fault => rfl
  | ok t => exact toOption_bind ..

end class_

end JackToolchain.Jack
