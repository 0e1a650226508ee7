import JackToolchain.Proofs.Jack.Calls
import JackToolchain.Proofs.Jack.Declarations
import JackToolchain.Proofs.Jack.Independence
import JackToolchain.Proofs.Jack.Spelling

/-!
# Wide classes

The grammar bounds neither how many variables a subroutine declares nor how many arguments a call
has. A class with any number of both has a source text, and it compiles.

* `Cls.source`, `spelledBy_source`: a text for a class whose tokens can be written.
* `wideCall`, `wide`: a call with `m` arguments, in the only subroutine of a class, which declares
  `n + 1` variables.
* `fits_wideCall_iff`: the call can count its values if they are not more than 65535.
* `block_wideSub`, `compile_wide`: **the class compiles, to a header and a call that show 16 bits
  of these numbers**.
-/

namespace JackToolchain.Jack

open Grammar Vm Files Text

variable {c : Cls} {h : Header} {v : Variable} {n m i j : Nat}

/-! ## Texts of classes -/

namespace Grammar

/-- A source text of a class: its tokens with blanks around them. -/
def Cls.source (c : Cls) : Source :=
  ⟨c.name ++ ".jack", c.name, written " " (c.tokens.map (·, " "))⟩

/-- A class whose tokens can be written is read back from its source text. -/
theorem Cls.spelledBy_source (hc : ∀ token ∈ c.tokens, token.IsPrintable) :
    c.SpelledBy c.source := by
  have hblank : Separates " " := ⟨⟨' ', [], rfl, rfl⟩, .blank rfl .nil⟩
  have hitems : ∀ item ∈ c.tokens.map (·, " "), item.1.IsPrintable ∧ Separates item.2 := by
    intro item hitem
    obtain ⟨token, htoken, rfl⟩ := List.mem_map.1 hitem
    exact ⟨hc token htoken, hblank⟩
  rw [Cls.SpelledBy, lex, Cls.source, lexFrom_written hblank hitems]
  apply List.ext_getElem?
  intro n
  cases hn : c.tokens[n]? <;> simp [hn]

theorem forall_mem_commaSeparated {α : Type} {P : Token → Prop} {tokens : α → List Token}
    {as : List α} (hcomma : P (.symbol .comma)) (has : ∀ a ∈ as, ∀ token ∈ tokens a, P token) :
    ∀ token ∈ commaSeparated tokens as, P token := by
  fun_induction commaSeparated tokens as with
  | case1 => exact List.forall_mem_nil _
  | case2 a => exact has a List.mem_cons_self
  | case3 a b others ih =>
    obtain ⟨ha, hmore⟩ := List.forall_mem_cons.1 has
    rw [List.forall_mem_append, List.forall_mem_cons]
    exact ⟨ha, hcomma, ih hmore⟩

theorem forall_mem_moreTokens {P : Token → Prop} {es : List Expr} (hcomma : P (.symbol .comma))
    (hes : ∀ e ∈ es, ∀ token ∈ e.tokens, P token) : ∀ token ∈ moreTokens es, P token := by
  induction es with
  | nil => exact List.forall_mem_nil _
  | cons e es ih =>
    obtain ⟨he, hmore⟩ := List.forall_mem_cons.1 hes
    rw [moreTokens, List.forall_mem_cons, List.forall_mem_append]
    exact ⟨hcomma, he, ih hmore⟩

theorem forall_mem_argumentsTokens {P : Token → Prop} {es : List Expr}
    (hcomma : P (.symbol .comma)) (hes : ∀ e ∈ es, ∀ token ∈ e.tokens, P token) :
    ∀ token ∈ argumentsTokens es, P token := by
  cases es with
  | nil => exact List.forall_mem_nil _
  | cons e es =>
    obtain ⟨he, hmore⟩ := List.forall_mem_cons.1 hes
    rw [argumentsTokens, List.forall_mem_append]
    exact ⟨he, forall_mem_moreTokens hcomma hmore⟩

end Grammar

/-! ## Names -/

/-- The names of as many variables as one likes. -/
def varName (i : Nat) : String :=
  "x" ++ toString i

theorem toList_varName (i : Nat) : (varName i).toList = 'x' :: (toString i).toList := by
  rw [varName, String.toList_append]
  rfl

theorem varName_injective (h : varName i = varName j) : i = j :=
  (numbered_inj rfl rfl h).2

theorem isPrintable_varName (i : Nat) : (Token.identifier (varName i)).IsPrintable := by
  have hplain : IsPlain (varName i) := by
    constructor
    · rw [toList_varName]
      exact List.cons_ne_nil _ _
    · rw [toList_varName, List.forall_mem_cons]
      exact ⟨by decide, fun c hc => isSeparator_of_isDigit (isDigit_of_mem_toString hc)⟩
  refine ⟨⟨hplain, ?_⟩, ?_⟩
  · -- no keyword starts with an `x`
    refine Option.eq_none_iff_forall_ne_some.2 fun k hk => ?_
    have hhead : k.text.toList.head? = some 'x' := by
      rw [Keyword.ofText?_eq_some_iff.1 hk, toList_varName]
      rfl
    cases k <;> cases hhead
  · rintro ⟨hdigits, -⟩
    rw [toList_varName, List.forall_mem_cons] at hdigits
    cases hdigits.1

/-! ## Wide classes -/

/-- A call of another subroutine with a variable as each of `m` arguments. -/
def wideCall (m : Nat) : Call :=
  ⟨.member "Main" "g", List.replicate m (.mk (.name (varName 0)) .nil)⟩

/-- The call as an expression. -/
def wideExpr (m : Nat) : Expr :=
  .mk (.call (wideCall m).callee (wideCall m).arguments) .nil

/-- A function that declares `n + 1` variables and returns what the call of `m` arguments does. -/
def wideSub (n m : Nat) : Sub :=
  ⟨.function, some .int, "f", [],
    [⟨.var, .local, rfl, .int, varName 0, (List.range n).map fun i => varName (i + 1)⟩],
    [.return (some (wideExpr m))]⟩

/-- The class of that function. -/
def wide (n m : Nat) : Cls :=
  ⟨"Main", [], [wideSub n m]⟩

/-- The words of a wide class are keywords, its own names and those of its variables. -/
theorem forall_mem_tokens_wide {P : Token → Prop} (hkeyword : ∀ k, P (.keyword k))
    (hsymbol : ∀ s, P (.symbol s)) (hname : ∀ name ∈ ["Main", "f", "g"], P (.identifier name))
    (hvariable : ∀ i, P (.identifier (varName i))) (n m : Nat) :
    ∀ token ∈ (wide n m).tokens, P token := by
  have hdeclared : ∀ token ∈ commaSeparated (fun name => [Token.identifier name])
      (varName 0 :: (List.range n).map fun i => varName (i + 1)), P token :=
    forall_mem_commaSeparated (hsymbol _) (by simp [hvariable])
  have hcallee : ∀ token ∈ (wideCall m).callee.tokens, P token :=
    List.forall_mem_cons.2 ⟨hname "Main" (by decide), List.forall_mem_cons.2
      ⟨hsymbol _, List.forall_mem_singleton.2 (hname "g" (by decide))⟩⟩
  have harguments : ∀ token ∈ argumentsTokens (wideCall m).arguments, P token := by
    refine forall_mem_argumentsTokens (hsymbol _) fun e he => ?_
    rw [List.eq_of_mem_replicate he]
    exact List.forall_mem_singleton.2 (hvariable 0)
  simp only [wide, Cls.tokens, wideSub, braced, Sub.tokens, VarDec.tokens, VarDec.names,
    statementsTokens, Stmt.tokens, wideExpr, Expr.tokens, Term.tokens, Chain.tokens,
    List.flatMap_cons, List.flatMap_nil, List.forall_mem_cons, List.forall_mem_append]
  and_intros
  all_goals first
    | exact hkeyword _
    | exact hsymbol _
    | exact hname _ (by decide)
    | exact List.forall_mem_nil _
    | exact hdeclared
    | exact hcallee
    | exact harguments

theorem spelledBy_source_wide (n m : Nat) : (wide n m).SpelledBy (wide n m).source := by
  refine Cls.spelledBy_source (forall_mem_tokens_wide (fun _ => trivial) (fun _ => trivial) ?_
    isPrintable_varName n m)
  have hcases : ∀ name ∈ ["Main", "f", "g"], Keyword.ofText? name = none ∧
      (!name.toList.isEmpty && name.toList.all (!isSeparator ·)) = true ∧
      name.toList.all Char.isDigit = false := by decide
  intro name hname
  obtain ⟨hkeyword, hplain, hletter⟩ := hcases name hname
  refine ⟨⟨.of_all hplain, hkeyword⟩, ?_⟩
  rintro ⟨hdigits, -⟩
  rw [List.all_eq_true.2 hdigits] at hletter
  cases hletter

/-! ## What they mean -/

theorem names_wideSub (n m : Nat) : (wideSub n m).names = (List.range (n + 1)).map varName := by
  simp [Sub.names, wideSub, VarDec.names, List.range_succ_eq_map]

theorem count_wideSub (n m : Nat) : (wideSub n m).count .local = n + 1 := by
  simp [Sub.count, wideSub, VarDec.names]

theorem exists_header?_wideSub (n m : Nat) : ∃ h, (wideSub n m).header? "Main" {} = some h ∧
    h.isVoid = false ∧ h.scope.find? (varName 0) = some ⟨varName 0, "int", .local, 0⟩ ∧
    h.scope.find? "Main" = none := by
  have hnodup : (wideSub n m).names.Nodup := by
    rw [names_wideSub]
    exact List.nodup_range.map fun i j => varName_injective
  have hletter (name : String) (hname : name.toList.head? ≠ some 'x') :
      name ∉ (wideSub n m).names := by
    intro hmem
    rw [names_wideSub] at hmem
    obtain ⟨i, -, rfl⟩ := List.mem_map.1 hmem
    rw [toList_varName] at hname
    exact hname rfl
  obtain ⟨h, hh⟩ :=
    Option.isSome_iff_exists.1 ((isSome_header?_iff (hletter "this" (by decide))).2 hnodup)
  have hscope : (wide n m).scope? = some {} := rfl
  have hfirst : (((wideSub n m).entries "Main").filter (·.kind = .local))[0]? =
      some ⟨varName 0, "int", .local⟩ := rfl
  refine ⟨h, hh, ?_, find?_declared hscope hh rfl hfirst, ?_⟩
  · obtain ⟨scope, -, rfl⟩ := header?_eq_some_iff.1 hh
    rfl
  · have hfind := @isSome_find?_header _ _ _ _ hh "Main" (by decide)
    rw [← Option.not_isSome_iff_eq_none, hfind]
    exact not_or.2 ⟨hletter "Main" (by decide), List.not_mem_nil⟩

theorem argumentsTree?_replicate {e : Expr} {x : Expression} (he : e.tree? h = some x) (m : Nat) :
    argumentsTree? h (List.replicate m e) = some (List.replicate m x) := by
  induction m with
  | zero => rfl
  | succ m ih => simp [List.replicate_succ, argumentsTree?, he, ih]

theorem argumentsTree?_wideCall (hx : h.scope.find? (varName 0) = some v) (m : Nat) :
    argumentsTree? h (wideCall m).arguments = some (List.replicate m (.variable v)) := by
  have hargument : (Expr.mk (.name (varName 0)) .nil).tree? h = some (.variable v) := by
    simp [Expr.tree?, Term.tree?, Chain.tree?, hx]
  exact argumentsTree?_replicate hargument m

theorem resolve_wideCall (hg : h.scope.find? "Main" = none) (m : Nat) :
    (wideCall m).callee.resolve h = some (.type "Main", "g") := by
  simp [wideCall, Callee.resolve, hg]

/-- What a wide call means where its class is no variable. -/
theorem tree?_wideExpr (hx : h.scope.find? (varName 0) = some v) (hg : h.scope.find? "Main" = none)
    (m : Nat) : (wideExpr m).tree? h =
      some (.call (.type "Main") "g" (List.replicate m (.variable v))) := by
  simp [wideExpr, Expr.tree?, Term.tree?, Chain.tree?, resolve_wideCall hg,
    argumentsTree?_wideCall hx]

theorem argumentsCalls_wideCall (m : Nat) : argumentsCalls (wideCall m).arguments = [] := by
  rw [wideCall]
  induction m with
  | zero => rfl
  | succ m ih => exact ih

/-- A wide call has no other calls among its arguments. -/
theorem calls_wideExpr (m : Nat) : (wideExpr m).calls = [wideCall m] := by
  rw [wideExpr, Expr.calls, Term.calls, argumentsCalls_wideCall]
  rfl

theorem statementsCalls_wideSub (n m : Nat) :
    statementsCalls (wideSub n m).body = [wideCall m] := by
  simp [wideSub, statementsCalls, Stmt.calls, calls_wideExpr]

theorem count_wideCall (hg : h.scope.find? "Main" = none) (m : Nat) :
    (wideCall m).count h = m := by
  simp [Call.count, wideCall, Callee.receiver, hg]

/-- A wide call can count its values if they are not more than 16 bits. -/
theorem fits_wideCall_iff (hg : h.scope.find? "Main" = none) :
    (wideCall m).Fits h ↔ m ≤ maxNumber := by
  rw [Call.Fits, count_wideCall hg]

/-- The code of what a wide call means. -/
theorem code_wideCall (hv : v.push = .push .local 0) (className : String) (m : Nat) :
    (Expression.call (.type "Main") "g" (List.replicate m (.variable v))).code className =
      List.replicate m (.push .local 0) ++ [.call "Main.g" (counted m)] := by
  have harguments : argumentsCode className (List.replicate m (.variable v)) =
      List.replicate m (.push .local 0) := by
    rw [argumentsCode_eq, List.map_replicate, Expression.code, hv]
    induction m with
    | zero => rfl
    | succ m ih => exact congrArg (_ :: ·) ih
  rw [Expression.code, toNat_argumentCount, harguments, List.length_replicate]
  rfl

/-- The only subroutine of a wide class, and what it means. -/
theorem exists_tree?_wideSub (n m : Nat) : ∃ h, (wideSub n m).header? "Main" {} = some h ∧
    h.scope.find? "Main" = none ∧
    (wideSub n m).tree? "Main" {} = some ⟨h, [.return (some (.call (.type "Main") "g"
      (List.replicate m (.variable ⟨varName 0, "int", .local, 0⟩))))]⟩ := by
  obtain ⟨h, hh, hvoid, hx, hmain⟩ := exists_header?_wideSub n m
  refine ⟨h, hh, hmain, subTree?_eq_some_iff.2 ⟨h, hh, _, ?_, rfl⟩⟩
  simp [wideSub, statementsTree?, Stmt.tree?, hvoid, tree?_wideExpr hx hmain]

/-- The header and the call show 16 bits of their numbers. -/
theorem block_wideSub (n m : Nat) : (wideSub n m).block "Main" {} =
    .function "Main.f" (counted (n + 1)) ::
      (List.replicate m (.push .local 0) ++ [.call "Main.g" (counted m), .return]) := by
  obtain ⟨h, -, -, hsub⟩ := exists_tree?_wideSub n m
  have hscope : (wide n m).scope? = some {} := rfl
  have hprologue : (wideSub n m).prologue (counted ((wide n m).count .field)) = [] := rfl
  rw [block_eq hsub, code_eq_of_subTree? hscope hsub, count_wideSub, hprologue]
  simp [statementsCode, Statement.code, code_wideCall, Variable.push, Kind.segment, wideSub,
    Subroutine.epilogue, Statement.isReturn, wide, qualifiedName]

/-- **A wide class compiles** to the block of its subroutine. -/
theorem compile_wide (n m : Nat) :
    compile (wide n m).source = .ok ⟨"Main", (wideSub n m).block "Main" {}⟩ := by
  obtain ⟨h, -, -, hsub⟩ := exists_tree?_wideSub n m
  refine (compile_eq_ok_iff (spelledBy_source_wide n m)).2 ⟨{}, rfl, ?_, ?_⟩
  · exact List.forall_mem_singleton.2 (by rw [wide, hsub]; rfl)
  · simp [wide]

end JackToolchain.Jack
