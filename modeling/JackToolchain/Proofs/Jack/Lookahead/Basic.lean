import Mathlib.Data.List.Basic
import JackToolchain.Jack.Reading.Basic

/-!
# How far a rule looks

A rule of the grammar settles its outcome by the tokens that it takes and by the token
behind them, which it looks at without taking it. So what it reads, and where it breaks off,
stays the same on other tokens that begin alike. Offsets have no part in this: they are only
copied into faults.

* `Rest`: the rest of a rule, behind some token.
* `Local`: its outcome is settled by the tokens taken and the one behind them.
* `Local.of_bind`: a reader and then the rest of the rule.
* `Local.cons`, `Local.congr`: a token that is taken, and one that is looked at.
-/

namespace JackToolchain.Jack

variable {α β γ : Type} {ts r s : List Lexeme}

/-! ## Tokens alike -/

/-- Two lists of lexemes are the same tokens, at whatever offsets. -/
def SameTokens (p q : List Lexeme) : Prop := p.map Lexeme.token = q.map Lexeme.token

/-- Two lists of lexemes start with the same token, or both are empty. -/
def SameFront (r s : List Lexeme) : Prop := r.head?.map Lexeme.token = s.head?.map Lexeme.token

theorem SameFront.refl (r : List Lexeme) : SameFront r r := rfl

theorem SameTokens.append_inv {p q q₁ : List Lexeme} (h : SameTokens p (q ++ q₁)) :
    ∃ p₀ p₁, p = p₀ ++ p₁ ∧ SameTokens p₀ q ∧ SameTokens p₁ q₁ := by
  unfold SameTokens at h
  rw [List.map_append] at h
  obtain ⟨p₀, p₁, rfl, h₀, h₁⟩ := List.map_eq_append_iff.1 h
  exact ⟨p₀, p₁, rfl, h₀, h₁⟩

theorem SameTokens.cons_inv {p q : List Lexeme} {l : Lexeme} (h : SameTokens p (l :: q)) :
    ∃ o p₁, p = ⟨l.token, o⟩ :: p₁ ∧ SameTokens p₁ q := by
  unfold SameTokens at h
  rw [List.map_cons] at h
  obtain ⟨⟨token, o⟩, p₁, rfl, rfl, h₁⟩ := List.map_eq_cons_iff.1 h
  exact ⟨o, p₁, rfl, h₁⟩

theorem SameTokens.nil_inv {p : List Lexeme} (h : SameTokens p []) : p = [] :=
  List.map_eq_nil_iff.1 h

theorem SameFront.append {p q : List Lexeme} (hp : SameTokens p q) (hr : SameFront r s) :
    SameFront (p ++ r) (q ++ s) := by
  cases q with
  | nil =>
    rw [hp.nil_inv]
    exact hr
  | cons l q =>
    obtain ⟨o, p₁, rfl, -⟩ := hp.cons_inv
    rfl

/-- Behind at least one token, what follows does not matter to the front. -/
theorem SameTokens.front {p q : List Lexeme} (hp : SameTokens p q) (hq : q ≠ []) :
    SameFront (p ++ r) (q ++ s) := by
  cases q with
  | nil => exact absurd rfl hq
  | cons l q =>
    obtain ⟨o, p₁, rfl, -⟩ := hp.cons_inv
    rfl

theorem SameFront.nil_inv (h : SameFront s []) : s = [] := by
  cases s with
  | nil => rfl
  | cons m s => cases h

theorem SameFront.cons_inv {l : Lexeme} (h : SameFront s (l :: r)) :
    ∃ o s₁, s = ⟨l.token, o⟩ :: s₁ := by
  cases s with
  | nil => cases h
  | cons m s =>
    obtain ⟨token, o⟩ := m
    obtain rfl := Option.some.inj h
    exact ⟨o, s, rfl⟩

theorem SameFront.frontSymbol? (h : SameFront s r) : frontSymbol? s = frontSymbol? r := by
  cases r with
  | nil => rw [h.nil_inv]
  | cons l r =>
    obtain ⟨o, s₁, rfl⟩ := h.cons_inv
    obtain ⟨token, offset⟩ := l
    cases token <;> rfl

theorem SameFront.frontKeyword? (h : SameFront s r) : frontKeyword? s = frontKeyword? r := by
  cases r with
  | nil => rw [h.nil_inv]
  | cons l r =>
    obtain ⟨o, s₁, rfl⟩ := h.cons_inv
    obtain ⟨token, offset⟩ := l
    cases token <;> rfl

/-- Two lists whose first tokens are the same are so at every place among them. -/
theorem SameTokens.getElem? {ts us : List Lexeme} {m i : Nat}
    (h : SameTokens (us.take m) (ts.take m)) (hi : i < m) :
    us[i]?.map Lexeme.token = ts[i]?.map Lexeme.token := by
  have hplace := congrArg (fun tokens : List Token => tokens[i]?) h
  simpa only [List.getElem?_map, List.getElem?_take_of_lt hi] using hplace

theorem SameTokens.take_le {ts us : List Lexeme} {m j : Nat}
    (h : SameTokens (us.take m) (ts.take m)) (hj : j ≤ m) : SameTokens (us.take j) (ts.take j) := by
  have htake := congrArg (List.take j) h
  simpa only [SameTokens, ← List.map_take, List.take_take, Nat.min_eq_left hj] using htake

/-- Tokens that begin as others do split at the same place. -/
theorem SameTokens.split {us p rest : List Lexeme} {l : Lexeme} {n : Nat}
    (h : SameTokens (us.take (p.length + n)) ((p ++ l :: rest).take (p.length + n)))
    (hn : 1 ≤ n) :
    ∃ p' l' rest', us = p' ++ l' :: rest' ∧ us[p.length]? = some l' ∧
      SameTokens (p' ++ [l']) (p ++ [l]) ∧ (2 ≤ n → SameFront rest' rest) := by
  have hplace := h.getElem? (i := p.length) (by omega)
  rw [List.getElem?_append_right (Nat.le_refl _), Nat.sub_self, List.getElem?_cons_zero,
    Option.map_some] at hplace
  obtain ⟨l', hl', -⟩ := Option.map_eq_some_iff.1 hplace
  refine ⟨us.take p.length, l', us.drop (p.length + 1), ?_, hl', ?_, fun hn => ?_⟩
  · obtain ⟨hlen, rfl⟩ := List.getElem?_eq_some_iff.1 hl'
    rw [← List.drop_eq_getElem_cons, List.take_append_drop]
  · have htake := h.take_le (j := p.length + 1) (by omega)
    rw [List.take_add_one, hl', List.take_length_add_append] at htake
    exact htake
  · have hnext := h.getElem? (i := p.length + 1) (by omega)
    rw [List.getElem?_append_right (Nat.le_succ _), Nat.succ_sub (Nat.le_refl _), Nat.sub_self,
      List.getElem?_cons_succ, ← List.head?_eq_getElem?, ← List.head?_drop] at hnext
    exact hnext

/-- The offset of the last of some tokens that stand behind a token at an offset. -/
def lastOffset (o : Nat) : List Lexeme → Nat
  | [] => o
  | l :: p => lastOffset l.offset p

theorem lastOffset_append (o : Nat) (p q : List Lexeme) :
    lastOffset o (p ++ q) = lastOffset (lastOffset o p) q := by
  induction p generalizing o with
  | nil => rfl
  | cons l p ih => exact ih l.offset

/-! ## Rules -/

/-- What a reading comes to, without the proof that fewer tokens are left. -/
def bare (reading : Except Fault (Taken α ts)) : Except Fault (α × List Lexeme) :=
  reading.map fun t => (t.value, t.rest)

@[simp] theorem bare_ok {t : Taken α ts} : bare (.ok t) = .ok (t.value, t.rest) := rfl

@[simp] theorem bare_error {fault : Fault} :
    bare (.error fault : Except Fault (Taken α ts)) = .error fault := rfl

@[simp] theorem bare_within (h : r.length < ts.length) (x : Except Fault (Taken α r)) :
    bare (within h x) = bare x := by
  cases x <;> rfl

theorem eq_error_of_bare {x : Except Fault (Taken α ts)} {fault : Fault}
    (h : bare x = .error fault) : x = .error fault := by
  cases x with
  | error fault' =>
    cases h
    rfl
  | ok t => cases h

theorem eq_ok_of_bare {x : Except Fault (Taken α ts)} {v : α} (h : bare x = .ok (v, r)) :
    ∃ hr, x = .ok ⟨v, r, hr⟩ := by
  cases x with
  | error fault => cases h
  | ok t =>
    cases h
    exact ⟨t.shorter, rfl⟩

/-- The rest of a rule: it reads `r`, which is what is left of `ts` behind a token at some
offset. -/
abbrev Rest (β : Type) : Type :=
  Nat → (ts r : List Lexeme) → r.length < ts.length → Except Fault (Taken β ts)

/-- Every list of tokens is what is left of some longer one. -/
theorem exists_longer (r : List Lexeme) : ∃ ts : List Lexeme, r.length < ts.length :=
  ⟨⟨.symbol .dot, 0⟩ :: r, Nat.lt_succ_self _⟩

/-- A reader as the rest of a rule. -/
abbrev Rest.reader (read : (ts : List Lexeme) → Except Fault (Taken β ts)) : Rest β :=
  fun _ _ r h => within h (read r)

/-- Whether a fault with a cause is found only when the token behind it was looked at. An
unexpected token is one itself. -/
def Cause.looksAhead : Cause → Bool
  | .unexpectedToken .. => false
  | _ => true

/-- On every list that begins with the tokens of `p` and goes on as told, a rule comes to
the same result, up to the offset of the last token of `p`. -/
def Settled (K : Rest β) (p : List Lexeme) (goesOn : List Lexeme → Prop)
    (result : Nat → List Lexeme → Except Fault (β × List Lexeme)) : Prop :=
  ∀ o ts p' rest h, SameTokens p' p → goesOn rest →
    bare (K o ts (p' ++ rest) h) = result (lastOffset o p') rest

/-- The outcome of a rule is settled by the tokens that it takes and by the one behind
them. A fault lies at the last token taken, and is settled by the tokens taken alone if it
is about an unexpected one. -/
inductive Local (K : Rest β) (r : List Lexeme) : Prop where
  | ok (v : β) (p rest : List Lexeme) (split : r = p ++ rest)
      (settled : Settled K p (SameFront · rest) fun _ rest' => .ok (v, rest'))
  | error (cause : Cause) (p rest : List Lexeme) (split : r = p ++ rest)
      (front : p = [] → cause.looksAhead)
      (settled : Settled K p (fun rest' => cause.looksAhead → SameFront rest' rest)
        fun o _ => .error ⟨cause, some o⟩)
  | atEnd (expected : Expected)
      (settled : ∀ o ts h, bare (K o ts r h) = .error ⟨.unexpectedEnd expected, none⟩)

/-- A check of the token at an offset passes, or puts a fault there, whatever the offset is. -/
def OnToken (check : Nat → Except Fault γ) : Prop :=
  (∃ v, ∀ o, check o = .ok v) ∨
    ∃ cause : Cause, cause.looksAhead ∧ ∀ o, check o = .error ⟨cause, some o⟩

/-! ## How rules are built -/

namespace Local

variable {K : Rest β}

/-- A part of a rule and then the rest of it. -/
theorem of_bind {A : Rest α} {L : α → Rest β} (hA : Local A r)
    (herror : ∀ o ts s h fault, bare (A o ts s h) = .error fault →
      bare (K o ts s h) = .error fault)
    (hok : ∀ o ts s h v rest o₂, bare (A o ts s h) = .ok (v, rest) →
      ∃ us hs, bare (K o ts s h) = bare (L v o₂ us rest hs))
    (hL : ∀ v rest, (∀ o ts h, bare (A o ts r h) = .ok (v, rest)) → Local (L v) rest) :
    Local K r := by
  cases hA with
  | atEnd expected settled =>
    exact .atEnd expected fun o ts h => herror o ts r h _ (settled o ts h)
  | error cause p rest split front settled =>
    refine .error cause p rest split front fun o ts p' rest' h hp hrest => ?_
    exact herror o ts _ h _ (settled o ts p' rest' h hp hrest)
  | ok v p rest split settled =>
    subst split
    cases hL v rest fun o ts h => settled o ts p rest h rfl (.refl rest) with
    | ok w p₂ rest₂ split₂ settled₂ =>
      subst split₂
      refine .ok w (p ++ p₂) rest₂ (by rw [List.append_assoc]) ?_
      intro o ts p' rest' h hp hrest
      obtain ⟨p₀, p₁, rfl, hp₀, hp₁⟩ := hp.append_inv
      rw [List.append_assoc] at h
      have hfirst := settled o ts p₀ (p₁ ++ rest') h hp₀ (.append hp₁ hrest)
      obtain ⟨us, hs, hK⟩ := hok o ts _ h _ _ (lastOffset o p₀) hfirst
      rw [settled₂ _ us p₁ rest' hs hp₁ hrest] at hK
      simpa only [List.append_assoc] using hK
    | error cause p₂ rest₂ split₂ front₂ settled₂ =>
      subst split₂
      refine .error cause (p ++ p₂) rest₂ (by rw [List.append_assoc]) ?_ ?_
      · intro hnil
        exact front₂ (List.append_eq_nil_iff.1 hnil).2
      intro o ts p' rest' h hp hrest
      obtain ⟨p₀, p₁, rfl, hp₀, hp₁⟩ := hp.append_inv
      rw [List.append_assoc] at h
      -- the token behind those of the part is known: it is in `p₂`, or it was looked at
      have hfront : SameFront (p₁ ++ rest') (p₂ ++ rest₂) := by
        by_cases hp₂ : p₂ = []
        · exact .append hp₁ (hrest (front₂ hp₂))
        · exact hp₁.front hp₂
      have hfirst := settled o ts p₀ (p₁ ++ rest') h hp₀ hfront
      obtain ⟨us, hs, hK⟩ := hok o ts _ h _ _ (lastOffset o p₀) hfirst
      rw [settled₂ _ us p₁ rest' hs hp₁ hrest] at hK
      rw [lastOffset_append]
      simpa only [List.append_assoc] using hK
    | atEnd expected settled₂ =>
      refine .atEnd expected fun o ts h => ?_
      obtain ⟨us, hs, hK⟩ := hok o ts _ h _ _ 0 (settled o ts p rest h rfl (.refl rest))
      rw [hK, settled₂]

/-- A part of a rule that takes any number of tokens, and then the rest of it. -/
theorem andThen {A : Rest α} {G : (ts : List Lexeme) → Taken α ts → Except Fault (Taken β ts)}
    (hA : Local A r)
    (hG : ∀ v rest, (∀ o ts h, bare (A o ts r h) = .ok (v, rest)) →
      Local (fun _ ts r h => G ts ⟨v, r, h⟩) rest) :
    Local (fun o ts r h => A o ts r h >>= G ts) r := by
  refine of_bind hA ?_ ?_ hG
  · intro o ts s h fault hs
    rw [eq_error_of_bare hs]
    rfl
  · intro o ts s h v rest _ hs
    obtain ⟨hr, hs⟩ := eq_ok_of_bare hs
    exact ⟨ts, hr, by rw [hs]; rfl⟩

/-- What a reader takes off some tokens is at least one of them. -/
theorem length_lt_of_reader {A : (ts : List Lexeme) → Except Fault (Taken α ts)} {v : α}
    {rest : List Lexeme} (hA : ∀ o ts h, bare (Rest.reader A o ts r h) = .ok (v, rest)) :
    rest.length < r.length := by
  obtain ⟨ts, h⟩ := exists_longer r
  obtain ⟨hr, -⟩ := eq_ok_of_bare ((bare_within h (A r)).symm.trans (hA 0 ts h))
  exact hr

variable {A : (ts : List Lexeme) → Except Fault (Taken α ts)}
  {G : (ts : List Lexeme) → Taken α ts → Except Fault (Taken β ts)}

/-- The rest of a rule that starts with a reader. -/
theorem seq (hA : Local (.reader A) r)
    (hG : ∀ v rest, rest.length < r.length → Local (fun _ ts r h => G ts ⟨v, r, h⟩) rest) :
    Local (fun _ ts r h => within h (A r) >>= G ts) r :=
  andThen hA fun v rest hrest => hG v rest (length_lt_of_reader hrest)

/-- A reader that starts with another one. -/
theorem bind (hA : Local (.reader A) r)
    (hG : ∀ v rest, rest.length < r.length → Local (fun _ ts r h => G ts ⟨v, r, h⟩) rest) :
    Local (.reader fun ts => A ts >>= G ts) r := by
  refine of_bind hA ?_ ?_ fun v rest hrest => hG v rest (length_lt_of_reader hrest)
  · intro o ts s h fault hs
    simp only [bare_within] at hs ⊢
    rw [eq_error_of_bare hs]
    rfl
  · intro o ts s h v rest _ hs
    simp only [bare_within] at hs ⊢
    obtain ⟨hr, hs⟩ := eq_ok_of_bare hs
    exact ⟨s, hr, by rw [hs]; rfl⟩

/-- A rule that takes a token, whatever follows it. -/
theorem cons {L : Rest β} {token : Token} {offset : Nat}
    (hK : ∀ o ts o₁ rest h, ∃ us hs, bare (K o ts (⟨token, o₁⟩ :: rest) h) =
      bare (L o₁ us rest hs)) (hL : Local L r) : Local K (⟨token, offset⟩ :: r) := by
  cases hL with
  | ok v p rest split settled =>
    refine .ok v (⟨token, offset⟩ :: p) rest (by rw [split, List.cons_append]) ?_
    intro o ts p' rest' h hp hrest
    obtain ⟨o₁, p₁, rfl, hp₁⟩ := hp.cons_inv
    obtain ⟨us, hs, hK⟩ := hK o ts o₁ (p₁ ++ rest') h
    exact hK.trans (settled o₁ us p₁ rest' hs hp₁ hrest)
  | error cause p rest split front settled =>
    refine .error cause (⟨token, offset⟩ :: p) rest (by rw [split, List.cons_append]) nofun ?_
    intro o ts p' rest' h hp hrest
    obtain ⟨o₁, p₁, rfl, hp₁⟩ := hp.cons_inv
    obtain ⟨us, hs, hK⟩ := hK o ts o₁ (p₁ ++ rest') h
    exact hK.trans (settled o₁ us p₁ rest' hs hp₁ hrest)
  | atEnd expected settled =>
    refine .atEnd expected fun o ts h => ?_
    obtain ⟨us, hs, hK⟩ := hK o ts offset r h
    rw [hK, settled]

/-- A rule that does as another one on all tokens that start alike. -/
theorem congr {L : Rest β} (hK : ∀ o ts s h, SameFront s r →
    bare (K o ts s h) = bare (L o ts s h)) (hL : Local L r) : Local K r := by
  cases hL with
  | ok v p rest split settled =>
    subst split
    refine .ok v p rest rfl fun o ts p' rest' h hp hrest => ?_
    rw [hK o ts _ h (.append hp hrest), settled o ts p' rest' h hp hrest]
  | error cause p rest split front settled =>
    subst split
    refine .error cause p rest rfl front fun o ts p' rest' h hp hrest => ?_
    have hfront : SameFront (p' ++ rest') (p ++ rest) := by
      by_cases hnil : p = []
      · exact .append hp (hrest (front hnil))
      · exact hp.front hnil
    rw [hK o ts _ h hfront, settled o ts p' rest' h hp hrest]
  | atEnd expected settled =>
    exact .atEnd expected fun o ts h => by rw [hK o ts r h (.refl r), settled]

/-- A rule that has nothing left to read. -/
theorem pure (v : β) (r : List Lexeme) : Local (fun _ _ r h => .ok ⟨v, r, h⟩) r :=
  .ok v [] r rfl fun o ts p' rest h hp _ => by
    obtain rfl := hp.nil_inv
    rfl

/-- A rule that refuses the token at hand. -/
theorem unexpected (expected : Expected) (r : List Lexeme) :
    Local (fun _ _ r _ => (.error (Jack.unexpected expected r) : Except Fault (Taken β _))) r := by
  cases r with
  | nil => exact .atEnd expected fun o ts h => rfl
  | cons l r =>
    refine .error (.unexpectedToken expected l.token) [l] r rfl nofun ?_
    intro o ts p' rest h hp _
    obtain ⟨o₁, p₁, rfl, hp₁⟩ := hp.cons_inv
    obtain rfl := hp₁.nil_inv
    rfl

/-- A rule that refuses a token, whatever follows it. -/
theorem refused {token : Token} {offset : Nat} (expected : Expected)
    (hK : ∀ o ts o₁ rest h, bare (K o ts (⟨token, o₁⟩ :: rest) h) =
      .error ⟨.unexpectedToken expected token, some o₁⟩) : Local K (⟨token, offset⟩ :: r) := by
  refine congr (fun o ts s h hs => ?_) (.unexpected expected (⟨token, offset⟩ :: r))
  obtain ⟨o₁, s₁, rfl⟩ := hs.cons_inv
  exact hK o ts o₁ s₁ h

/-- A check of the token behind which the rest of a rule stands. -/
theorem check {c : Nat → Except Fault γ} {G : γ → Rest β}
    (hc : OnToken c) (hG : ∀ v, Local (G v) r) :
    Local (fun o ts r h => c o >>= fun v => G v o ts r h) r := by
  obtain ⟨v, hv⟩ | ⟨cause, hcause, herror⟩ := hc
  · refine congr (fun o ts s h _ => ?_) (hG v)
    rw [hv]
    rfl
  · refine .error cause [] r rfl (fun _ => hcause) fun o ts p' rest h hp _ => ?_
    obtain rfl := hp.nil_inv
    rw [herror]
    rfl

end Local

/-! ## Single tokens -/

/-- A reader that accepts some tokens and refuses the others. -/
theorem local_accept (expected : Expected) (value? : Token → Option α) (r : List Lexeme) :
    Local (.reader (accept expected value?)) r := by
  cases r with
  | nil => exact .atEnd expected fun o ts h => rfl
  | cons l r =>
    obtain ⟨token, offset⟩ := l
    cases hv : value? token with
    | some v =>
      refine .ok v [⟨token, offset⟩] r rfl fun o ts p' rest h hp _ => ?_
      obtain ⟨o₁, p₁, rfl, hp₁⟩ := hp.cons_inv
      obtain rfl := hp₁.nil_inv
      rw [bare_within]
      simp [accept, next, hv, Bind.bind, Except.bind, Pure.pure, Except.pure]
    | none =>
      refine .refused expected fun o ts o₁ rest h => ?_
      rw [bare_within]
      simp [accept, next, hv, Bind.bind, Except.bind, unexpected]

theorem local_symbol (s : Punctuation) (r : List Lexeme) : Local (.reader (symbol s)) r :=
  local_accept _ _ r

theorem local_keyword (k : Keyword) (r : List Lexeme) : Local (.reader (keyword k)) r :=
  local_accept _ _ r

namespace Local

variable {G : (ts : List Lexeme) → Taken Name ts → Except Fault (Taken β ts)}

/-- A reader that starts with a token of any kind. The rest of it may put faults there. -/
theorem bind_next {expected : Expected} {token : Token} {offset : Nat}
    {G : (ts : List Lexeme) → Taken Lexeme ts → Except Fault (Taken β ts)}
    (hG : Local (fun o ts r h => G ts ⟨⟨token, o⟩, r, h⟩) r) :
    Local (.reader fun ts => next expected ts >>= G ts) (⟨token, offset⟩ :: r) := by
  refine cons (fun o ts o₁ rest h => ?_) hG
  exact ⟨⟨token, o₁⟩ :: rest, Nat.lt_succ_self _, bare_within h _⟩

/-- A reader that starts with a name. The rest of it may put faults at the name. -/
theorem bind_identifier {expected : Expected}
    (hG : ∀ text rest, rest.length < r.length →
      Local (fun o ts r h => G ts ⟨⟨text, o⟩, r, h⟩) rest) :
    Local (.reader fun ts => identifier expected ts >>= G ts) r := by
  cases r with
  | nil => exact .atEnd expected fun o ts h => rfl
  | cons l r =>
    obtain ⟨token, offset⟩ := l
    cases token with
    | identifier text =>
      refine cons (fun o ts o₁ rest h => ?_) (hG text r (Nat.lt_succ_self _))
      exact ⟨⟨.identifier text, o₁⟩ :: rest, Nat.lt_succ_self _, bare_within h _⟩
    | _ => exact refused expected fun o ts o₁ rest h => rfl

/-- The rest of a rule that starts with a name. -/
theorem seq_identifier {expected : Expected}
    (hG : ∀ text rest, rest.length < r.length →
      Local (fun o ts r h => G ts ⟨⟨text, o⟩, r, h⟩) rest) :
    Local (fun _ ts r h => within h (identifier expected r) >>= G ts) r := by
  cases r with
  | nil => exact .atEnd expected fun o ts h => rfl
  | cons l r =>
    obtain ⟨token, offset⟩ := l
    cases token with
    | identifier text =>
      refine cons (fun o ts o₁ rest h => ?_) (hG text r (Nat.lt_succ_self _))
      exact ⟨ts, Nat.lt_trans (Nat.lt_succ_self _) h, rfl⟩
    | _ => exact refused expected fun o ts o₁ rest h => rfl

end Local

/-! ## Checks -/

theorem onToken_declare (scope : Scope) (text type : String) (kind : Kind) :
    OnToken fun o => declare scope ⟨text, o⟩ type kind := by
  cases hd : scope.define text type kind with
  | some v => exact .inl ⟨v, fun o => by simp [declare, hd]⟩
  | none => exact .inr ⟨.duplicateDeclaration text, rfl, fun o => by simp [declare, hd]⟩

theorem onToken_resolve (scope : Scope) (text : String) :
    OnToken fun o => resolve scope ⟨text, o⟩ := by
  cases hf : scope.find? text with
  | some v => exact .inl ⟨v, fun o => by simp [resolve, hf]⟩
  | none => exact .inr ⟨.undeclaredVariable text, rfl, fun o => by simp [resolve, hf]⟩

theorem onToken_allowThis (h : Header) : OnToken (allowThis h) := by
  unfold allowThis
  by_cases hk : h.kind = .function
  · exact .inr ⟨.thisInFunction, rfl, fun o => if_pos hk⟩
  · exact .inl ⟨(), fun o => if_neg hk⟩

end JackToolchain.Jack
