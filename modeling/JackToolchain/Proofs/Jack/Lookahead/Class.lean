import JackToolchain.Jack.Program
import JackToolchain.Proofs.Jack.Lookahead.Statement

/-!
# The first fault of a class

What a class comes to is settled token by token: a fault is the first one that there is, and
nothing that follows it has a part in it.

* `local_header`, `local_preamble`: the readers of declarations settle their outcome locally.
* `Rest.whole`: what is read to the end of the file, as a rule.
* `fault_of_same_beginning`: **a fault depends on nothing behind the token that it is about**,
  or behind the next one.
-/

namespace JackToolchain.Jack

variable {α β : Type} {r : List Lexeme}

/-! ## Declarations -/

section declarations

variable {type : String} {kind : Kind} {kindOf? : Keyword → Option Kind}

theorem local_names (scope : Scope) (r : List Lexeme) :
    Local (.reader (readNames type kind scope)) r := by
  induction hn : r.length using Nat.strongRecOn generalizing scope r with
  | _ n ih =>
    subst hn
    unfold Rest.reader readNames
    refine .bind_identifier fun name rest₁ hlen₁ => ?_
    refine .check (onToken_declare scope name type kind) fun scope => ?_
    dsimp only
    apply Local.congr
    · intro o ts s hs hfront
      rw [hfront.frontSymbol?]
    by_cases hf : frontSymbol? rest₁ = some .comma
    · rw [hf]
      refine .seq (local_symbol ..) fun _ rest₂ hlen₂ => ?_
      exact ih rest₂.length (Nat.lt_trans hlen₂ hlen₁) scope rest₂ rfl
    · simp only
      exact .seq (local_symbol ..) fun _ rest _ => .pure scope rest

theorem local_variables (scope : Scope) (r : List Lexeme) :
    Local (fun _ _ r h => readVariables kindOf? ⟨scope, r, h⟩) r := by
  induction hn : r.length using Nat.strongRecOn generalizing scope r with
  | _ n ih =>
    subst hn
    cases hk : (frontKeyword? r).bind kindOf? with
    | none =>
      apply Local.congr
      · intro o ts s hs hfront
        rw [readVariables, hfront.frontKeyword?, hk]
      exact .pure scope r
    | some kind =>
      cases r with
      | nil => cases hk
      | cons l r =>
        obtain ⟨token, offset⟩ := l
        refine .cons (L := fun _ ts r h => within h (accept .type variableType? r) >>= fun t =>
          within t.shorter (readNames t.value kind scope t.rest) >>= fun u =>
            readVariables kindOf? ⟨u.value, u.rest, u.shorter⟩) ?_ ?_
        · intro o ts o₁ rest h
          refine ⟨ts, Nat.lt_trans (Nat.lt_succ_self _) h, ?_⟩
          have hfront : SameFront (⟨token, o₁⟩ :: rest) (⟨token, offset⟩ :: r) := rfl
          rw [readVariables, hfront.frontKeyword?, hk]
          simp only [next, bind, Except.bind]
          cases accept .type variableType? rest with
          | error fault => rfl
          | ok t =>
            simp only [within, Except.map]
            cases readNames t.value kind scope t.rest <;> rfl
        · refine .seq (local_accept ..) fun type rest₁ hlen₁ => ?_
          dsimp only
          refine .seq (local_names scope rest₁) fun scope rest₂ hlen₂ => ?_
          have hlen : rest₂.length < (⟨token, offset⟩ :: r : List Lexeme).length := by
            rw [List.length_cons]
            omega
          exact ih rest₂.length hlen scope rest₂ rfl

theorem local_someParameters (scope : Scope) (r : List Lexeme) :
    Local (.reader (readSomeParameters scope)) r := by
  induction hn : r.length using Nat.strongRecOn generalizing scope r with
  | _ n ih =>
    subst hn
    unfold Rest.reader readSomeParameters
    refine .bind (local_accept ..) fun type rest₁ hlen₁ => ?_
    refine .seq_identifier fun name rest₂ hlen₂ => ?_
    refine .check (onToken_declare scope name type .argument) fun scope => ?_
    dsimp only
    apply Local.congr
    · intro o ts s hs hfront
      rw [hfront.frontSymbol?]
    by_cases hf : frontSymbol? rest₂ = some .comma
    · rw [hf]
      refine .seq (local_symbol ..) fun _ rest₃ hlen₃ => ?_
      have hlen : rest₃.length < r.length := by omega
      exact ih rest₃.length hlen scope rest₃ rfl
    · simp only
      exact .seq (local_symbol ..) fun _ rest _ => .pure scope rest

theorem local_parameters (scope : Scope) (r : List Lexeme) :
    Local (.reader (readParameters scope)) r := by
  apply Local.congr
  · intro o ts s hs hfront
    rw [Rest.reader, readParameters.eq_def, hfront.frontSymbol?]
  by_cases hf : frontSymbol? r = some .rightParen
  · rw [hf]
    exact .bind (local_symbol ..) fun _ rest _ => .pure scope rest
  · simp only
    exact local_someParameters scope r

/-- The object of a method is declared first, so its name is free. -/
theorem onToken_initialScope (kind : SubroutineKind) (className : String) (scope : Scope) :
    OnToken fun _ => kind.initialScope className scope := by
  cases kind <;> exact .inl ⟨_, fun _ => rfl⟩

theorem local_header (className : String) (scope : Scope) (kind : SubroutineKind)
    (r : List Lexeme) : Local (.reader (readHeader className scope kind)) r := by
  cases r with
  | nil => exact .atEnd .returnType fun o ts h => rfl
  | cons l r =>
    unfold Rest.reader readHeader
    refine .bind_next ?_
    refine .seq (local_accept ..) fun isVoid rest _ => ?_
    refine .seq_identifier fun name rest _ => ?_
    dsimp only
    refine .check (onToken_initialScope kind className scope) fun scope => ?_
    refine .seq (local_symbol ..) fun _ rest _ => ?_
    refine .seq (local_parameters scope rest) fun scope rest _ => ?_
    dsimp only
    refine .seq (local_symbol ..) fun _ rest _ => ?_
    refine .andThen (local_variables scope rest) fun scope rest _ => ?_
    exact .pure (Header.mk className kind isVoid name scope) rest

theorem local_preamble (r : List Lexeme) : Local (.reader readPreamble) r := by
  unfold Rest.reader readPreamble
  refine .bind (local_keyword ..) fun _ rest _ => ?_
  refine .seq_identifier fun name rest _ => ?_
  dsimp only
  refine .seq (local_symbol ..) fun _ rest _ => ?_
  refine .andThen (local_variables {} rest) fun scope rest _ => ?_
  exact .pure (name, scope) rest

end declarations

/-! ## To the end of the file -/

/-- What is read to the end of the file, as a rule that leaves nothing. -/
def Rest.whole (read : List Lexeme → Except Fault β) : Rest β :=
  fun _ _ r h => (read r).map fun v => ⟨v, [], Nat.zero_lt_of_lt h⟩

theorem bare_whole (read : List Lexeme → Except Fault β) {o : Nat} {ts s : List Lexeme}
    (h : s.length < ts.length) :
    bare (Rest.whole read o ts s h) = (read s).map fun v => (v, []) := by
  unfold Rest.whole
  cases read s <;> rfl

namespace Local

variable {read read' : List Lexeme → Except Fault β}

theorem whole_congr (hread : ∀ s, SameFront s r → read s = read' s)
    (h' : Local (.whole read') r) : Local (.whole read) r :=
  congr (fun o ts s h hs => by rw [Rest.whole, Rest.whole, hread s hs]) h'

/-- A reader and then what is read to the end of the file. -/
theorem whole_bind {A : (ts : List Lexeme) → Except Fault (Taken α ts)}
    {L : α → List Lexeme → Except Fault β} (hA : Local (.reader A) r)
    (hread : ∀ s, SameFront s r → read s = A s >>= fun t => L t.value t.rest)
    (hL : ∀ v rest, rest.length < r.length → Local (.whole (L v)) rest) :
    Local (.whole read) r := by
  refine whole_congr hread ?_
  refine of_bind hA ?_ ?_ fun v rest hrest => hL v rest (length_lt_of_reader hrest)
  · intro o ts s h fault hs
    rw [bare_within] at hs
    rw [Rest.whole, eq_error_of_bare hs]
    rfl
  · intro o ts s h v rest _ hs
    rw [bare_within] at hs
    obtain ⟨hr, hs⟩ := eq_ok_of_bare hs
    exact ⟨ts, Nat.lt_trans hr h, by rw [Rest.whole, hs]; rfl⟩

theorem whole_map (f : β → α) (h : Local (.whole read) r) :
    Local (.whole fun ts => (read ts).map f) r := by
  have hmap : ∀ o ts s h, bare (Rest.whole (fun ts => (read ts).map f) o ts s h) =
      (bare (Rest.whole read o ts s h)).map fun x => (f x.1, x.2) := by
    intro o ts s h
    simp only [Rest.whole]
    cases read s <;> rfl
  cases h with
  | ok v p rest split settled =>
    refine .ok (f v) p rest split fun o ts p' rest' h hp hrest => ?_
    rw [hmap, settled o ts p' rest' h hp hrest]
    rfl
  | error cause p rest split front settled =>
    refine .error cause p rest split front fun o ts p' rest' h hp hrest => ?_
    rw [hmap, settled o ts p' rest' h hp hrest]
    rfl
  | atEnd expected settled =>
    refine .atEnd expected fun o ts h => ?_
    rw [hmap, settled o ts h]
    rfl

end Local

/-- What stands behind a class: nothing. -/
def nothingElse : List Lexeme → Except Fault Unit
  | [] => .ok ()
  | l :: r => .error (unexpected .endOfFile (l :: r))

theorem local_end (r : List Lexeme) : Local (.whole readEnd) r := by
  refine .whole_bind (L := fun _ => nothingElse) (local_symbol ..) (fun s _ => rfl) ?_
  intro _ rest _
  cases rest with
  | nil =>
    refine .congr (fun o ts s h hs => ?_) (.pure () [])
    obtain rfl := hs.nil_inv
    rfl
  | cons l rest => exact .refused .endOfFile fun o ts o₁ rest h => rfl

theorem local_subroutines (className : String) (scope : Scope) (r : List Lexeme) :
    Local (.whole fun ts => (readSubroutines className scope ts).outcome) r := by
  induction hn : r.length using Nat.strongRecOn generalizing r with
  | _ n ih =>
    subst hn
    cases hk : (frontKeyword? r).bind SubroutineKind.ofKeyword? with
    | none =>
      refine .whole_congr (fun s hs => ?_) (.whole_map (fun _ => []) (local_end r))
      rw [readSubroutines, hs.frontKeyword?, hk]
      cases readEnd s <;> rfl
    | some kind =>
      refine .whole_bind (L := fun header s => readStatements header s >>= fun t =>
        (readSubroutines className scope t.rest).outcome.map (⟨header, t.value⟩ :: ·))
        (local_header className scope kind r) (fun s hs => ?_) fun header r₁ hlen₁ => ?_
      · rw [readSubroutines, hs.frontKeyword?, hk]
        dsimp only
        cases readHeader className scope kind s with
        | error fault => rfl
        | ok t =>
          simp only [bind, Except.bind]
          cases readStatements t.value t.rest with
          | error fault => rfl
          | ok u => rfl
      · refine .whole_bind (L := fun body s =>
          (readSubroutines className scope s).outcome.map (⟨header, body⟩ :: ·))
          (localStatements header r₁).statements (fun s hs => rfl) fun body r₂ hlen₂ => ?_
        exact .whole_map _ (ih r₂.length (Nat.lt_trans hlen₂ hlen₁) r₂ rfl)

theorem local_class (r : List Lexeme) : Local (.whole fun ts => (readClass ts).outcome) r := by
  refine .whole_bind (L := fun v s => (readSubroutines v.1 v.2 s).outcome.map (⟨v.1, v.2, ·⟩))
    (local_preamble r) (fun s hs => ?_) fun v rest _ => ?_
  · unfold readClass
    cases readPreamble s with
    | error fault => rfl
    | ok t => rfl
  · exact .whole_map _ (local_subroutines v.1 v.2 rest)

/-! ## The fault -/

/-- A fault of what is read to the end of the file lies at a token of it, if it is not about
the end, and the tokens up to that one settle it, with the next one where it is looked at. -/
theorem Local.fault {read : List Lexeme → Except Fault β} (h : Local (.whole read) r)
    {fault : Fault} (hfault : read r = .error fault) :
    (∃ expected, fault = ⟨.unexpectedEnd expected, none⟩) ∨
      ∃ p l rest, r = p ++ l :: rest ∧ fault.offset? = some l.offset ∧
        ∀ p' l' rest', SameTokens (p' ++ [l']) (p ++ [l]) →
          (fault.cause.looksAhead → SameFront rest' rest) →
          read (p' ++ l' :: rest') = .error ⟨fault.cause, some l'.offset⟩ := by
  obtain ⟨ts, hlonger⟩ := exists_longer r
  cases h with
  | ok v p rest split settled =>
    subst split
    have hok := settled 0 ts p rest hlonger rfl (.refl rest)
    rw [bare_whole, hfault] at hok
    cases hok
  | atEnd expected settled =>
    have hend := settled 0 ts hlonger
    rw [bare_whole, hfault] at hend
    cases hend
    exact .inl ⟨expected, rfl⟩
  | error cause p rest split front settled =>
    subst split
    have herror : ∀ o p' rest', SameTokens p' p → (cause.looksAhead → SameFront rest' rest) →
        read (p' ++ rest') = .error ⟨cause, some (lastOffset o p')⟩ := by
      intro o p' rest' hp hrest
      obtain ⟨us, hus⟩ := exists_longer (p' ++ rest')
      have hbare := settled o us p' rest' hus hp hrest
      rw [bare_whole] at hbare
      cases hread : read (p' ++ rest') with
      | error fault' =>
        rw [hread] at hbare
        exact congrArg Except.error (Except.error.inj hbare)
      | ok v =>
        rw [hread] at hbare
        cases hbare
    rcases List.eq_nil_or_concat' p with rfl | ⟨p₀, l, rfl⟩
    · -- no token stands before the first one, so no fault can lie there
      have hzero := herror 0 [] rest rfl fun _ => .refl rest
      have hone := herror 1 [] rest rfl fun _ => .refl rest
      rw [hzero] at hone
      cases hone
    · have hhere := herror 0 (p₀ ++ [l]) rest rfl fun _ => .refl rest
      rw [hfault, lastOffset_append] at hhere
      cases hhere
      refine .inr ⟨p₀, l, rest, by simp, rfl, fun p' l' rest' hp hrest => ?_⟩
      have hthere := herror 0 (p' ++ [l']) rest' hp hrest
      rw [lastOffset_append, List.append_assoc] at hthere
      exact hthere

/-- How many tokens, from the one that it is about on, settle a fault with a cause. What is
read behind a name or a value is looked at before it is refused; an unexpected token is refused
at once. A fault about the end of the file is about no token. -/
def Cause.reach? : Cause → Option Nat
  | .unexpectedToken .. => some 1
  | .duplicateDeclaration _ | .undeclaredVariable _ | .thisInFunction | .stringTooLong _
  | .unsupportedCharacter _ => some 2
  | .unexpectedEnd _ => none

/-- **The fault that is reported is the first one, and depends on nothing behind it.** If a
token is refused, any other tokens that are the same up to that one are refused at it too, for
the same cause. A name or a value is refused together with the next token, or the end of the
file, which may have been looked at first. -/
theorem fault_of_same_beginning {ts : List Lexeme} {fault : Fault} {n : Nat}
    (hfault : (Program.ofTokens ts).outcome = .error fault)
    (hreach : fault.cause.reach? = some n) :
    ∃ i l, ts[i]? = some l ∧ fault.offset? = some l.offset ∧
      ∀ us, SameTokens (us.take (i + n)) (ts.take (i + n)) →
        ∃ l', us[i]? = some l' ∧
          (Program.ofTokens us).outcome = .error ⟨fault.cause, some l'.offset⟩ := by
  have hclass := ofTokens_eq_error_iff.1 hfault
  obtain ⟨expected, rfl⟩ | ⟨p, l, rest, rfl, hoffset, hthere⟩ := (local_class ts).fault hclass
  · cases hreach
  refine ⟨p.length, l, by simp, hoffset, fun us hus => ?_⟩
  have hn : 1 ≤ n ∧ (fault.cause.looksAhead → 2 ≤ n) := by
    cases hcause : fault.cause <;> rw [hcause] at hreach <;> cases hreach <;>
      simp [Cause.looksAhead]
  obtain ⟨p', l', rest', rfl, hl', hbehind, hahead⟩ := hus.split hn.1
  have hfault' := hthere p' l' rest' hbehind fun hlooks => hahead (hn.2 hlooks)
  exact ⟨l', hl', ofTokens_eq_error_iff.2 hfault'⟩

/-- An undeclared variable is reported at its name, whatever stands behind the comma or the
parenthesis that follows it. -/
theorem fault_of_same_beginning_undeclared :
    let ts := lex "class Main \x7b\n  function void main() \x7b\n    do f(1, y);\n  \x7d\n\x7d"
    let fault : Fault := ⟨.undeclaredVariable "y", some 50⟩
    (Program.ofTokens ts).outcome = .error fault ∧ fault.cause.reach? = some 2 ∧
      ts[14]? = some ⟨.identifier "y", 50⟩ ∧
      ∃ i l, ts[i]? = some l ∧ fault.offset? = some l.offset ∧
        ∀ us, SameTokens (us.take (i + 2)) (ts.take (i + 2)) →
          ∃ l', us[i]? = some l' ∧
            (Program.ofTokens us).outcome = .error ⟨fault.cause, some l'.offset⟩ := by
  intro ts fault
  have hfault : (Program.ofTokens ts).outcome = .error fault := by decide +kernel
  exact ⟨hfault, rfl, by decide +kernel, fault_of_same_beginning hfault rfl⟩

end JackToolchain.Jack
