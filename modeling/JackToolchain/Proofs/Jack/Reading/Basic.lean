import JackToolchain.Proofs.Jack.Grammar

/-!
# What readers take

A reader as a partial function: what it takes off the front of some tokens and what it
leaves, without the faults and without the proof that fewer tokens are left.

* `taken?`: the partial function of a reader.
* `taken?_bind`: that of two readers, one after the other.
* `behind?`, `name?`: those of the readers of a single token.
-/

namespace JackToolchain.Jack

variable {α β γ : Type} {ts us r : List Lexeme}

/-- What a reader takes, and the tokens that it leaves. -/
def taken? (reading : Except Fault (Taken α ts)) : Option (α × List Lexeme) :=
  match reading with
  | .ok t => some (t.value, t.rest)
  | .error _ => none

@[simp] theorem taken?_ok {t : Taken α ts} : taken? (.ok t) = some (t.value, t.rest) := rfl

@[simp] theorem taken?_pure {t : Taken α ts} : taken? (pure t) = some (t.value, t.rest) := rfl

@[simp] theorem taken?_error {fault : Fault} :
    taken? (.error fault : Except Fault (Taken α ts)) = none := rfl

@[simp] theorem taken?_within (h : r.length < ts.length) (x : Except Fault (Taken α r)) :
    taken? (within h x) = taken? x := by
  cases x <;> rfl

/-- A reader and then another one. -/
theorem taken?_bind {x : Except Fault (Taken α ts)}
    {f : Taken α ts → Except Fault (Taken β us)} {a : Option (α × List Lexeme)}
    {g : α × List Lexeme → Option (β × List Lexeme)} (ha : taken? x = a)
    (h : ∀ v r hr, taken? (f ⟨v, r, hr⟩) = g (v, r)) : taken? (x >>= f) = a.bind g := by
  subst ha
  cases x with
  | error fault => rfl
  | ok t => exact h t.value t.rest t.shorter

/-- A reader of a symbol or a keyword and then another one. -/
theorem taken?_bind_unit {x : Except Fault (Taken Unit ts)}
    {f : Taken Unit ts → Except Fault (Taken β us)} {a : Option (List Lexeme)}
    {g : List Lexeme → Option (β × List Lexeme)} (ha : taken? x = a.map fun r => ((), r))
    (h : ∀ r hr, taken? (f ⟨(), r, hr⟩) = g r) : taken? (x >>= f) = a.bind g := by
  rw [taken?_bind (g := fun (_, r) => g r) ha fun _ r hr => h r hr]
  cases a <;> rfl

/-- A check and then a reader. -/
theorem taken?_check {x : Except Fault γ} {f : γ → Except Fault (Taken β us)} :
    taken? (x >>= f) = x.toOption.bind fun v => taken? (f v) := by
  cases x <;> rfl

theorem length_lt_of_taken? {x : Except Fault (Taken α ts)} {v : α}
    (h : taken? x = some (v, r)) : r.length < ts.length := by
  cases x with
  | error fault => cases h
  | ok t =>
    cases h
    exact t.shorter

theorem eq_ok_of_taken? {x : Except Fault (Taken α ts)} {v : α}
    (h : taken? x = some (v, r)) : ∃ hr, x = .ok ⟨v, r, hr⟩ := by
  cases x with
  | error fault => cases h
  | ok t =>
    cases h
    exact ⟨t.shorter, rfl⟩

/-! ## Single tokens -/

/-- The tokens behind a symbol. -/
def behind? (s : Punctuation) : List Lexeme → Option (List Lexeme)
  | ⟨.symbol t, _⟩ :: rest => if t = s then some rest else none
  | _ => none

/-- The tokens behind a keyword. -/
def behindKeyword? (k : Keyword) : List Lexeme → Option (List Lexeme)
  | ⟨.keyword l, _⟩ :: rest => if l = k then some rest else none
  | _ => none

/-- The name at the front of some tokens, and the tokens behind it. -/
def name? : List Lexeme → Option (Name × List Lexeme)
  | ⟨.identifier name, offset⟩ :: rest => some (⟨name, offset⟩, rest)
  | _ => none

theorem behind?_eq_some_iff {s : Punctuation} :
    behind? s ts = some r ↔ ∃ offset, ts = ⟨.symbol s, offset⟩ :: r := by
  constructor
  · intro h
    unfold behind? at h
    split at h
    · split at h
      · cases h
        subst s
        exact ⟨_, rfl⟩
      · cases h
    · cases h
  · rintro ⟨offset, rfl⟩
    simp [behind?]

theorem name?_eq_some_iff {name : Name} :
    name? ts = some (name, r) ↔ ts = ⟨.identifier name.text, name.offset⟩ :: r := by
  constructor
  · intro h
    unfold name? at h
    split at h
    · cases h
      rfl
    · cases h
  · rintro rfl
    rfl

@[simp] theorem behind?_cons {s : Punctuation} {offset : Nat} :
    behind? s (⟨.symbol s, offset⟩ :: r) = some r := by
  simp [behind?]

@[simp] theorem behindKeyword?_cons {k : Keyword} {offset : Nat} :
    behindKeyword? k (⟨.keyword k, offset⟩ :: r) = some r := by
  simp [behindKeyword?]

theorem taken?_symbol (s : Punctuation) (ts : List Lexeme) :
    taken? (symbol s ts) = (behind? s ts).map fun r => ((), r) := by
  cases ts with
  | nil => rfl
  | cons l r =>
    obtain ⟨token, offset⟩ := l
    cases token with
    | symbol t => by_cases h : t = s <;> simp [symbol, accept, next, behind?, h, bind, Except.bind]
    | _ => rfl

theorem taken?_keyword (k : Keyword) (ts : List Lexeme) :
    taken? (keyword k ts) = (behindKeyword? k ts).map fun r => ((), r) := by
  cases ts with
  | nil => rfl
  | cons l r =>
    obtain ⟨token, offset⟩ := l
    cases token with
    | keyword t =>
      by_cases h : t = k <;> simp [keyword, accept, next, behindKeyword?, h, bind, Except.bind]
    | _ => rfl

theorem taken?_next (expected : Expected) (ts : List Lexeme) :
    taken? (next expected ts) = ts.head?.map fun l => (l, ts.tail) := by
  cases ts <;> rfl

theorem taken?_identifier (expected : Expected) (ts : List Lexeme) :
    taken? (identifier expected ts) = name? ts := by
  cases ts with
  | nil => rfl
  | cons l r =>
    obtain ⟨token, offset⟩ := l
    cases token <;> rfl

theorem toOption_resolve (scope : Scope) (name : Name) :
    (resolve scope name).toOption = scope.find? name.text := by
  unfold resolve
  cases scope.find? name.text <;> rfl

theorem toOption_allowThis (h : Header) (offset : Nat) :
    (allowThis h offset).toOption = if h.hasObject then some () else none := by
  unfold allowThis Header.hasObject
  split <;> simp_all [Except.toOption]

theorem toOption_checkString (value : String) (offset : Nat) :
    (checkString value offset).toOption = if isWritable value then some () else none := by
  unfold checkString isWritable
  by_cases hs : maxConstant < utf16Size value.toList
  · simp [hs, Nat.not_le.2 hs, Except.toOption]
  · cases hf : value.toList.find? (maxConstant < ·.toNat) with
    | none =>
      have hall : value.toList.all (·.toNat ≤ maxConstant) := by
        simpa using List.find?_eq_none.1 hf
      simp [hs, hall, Nat.not_lt.1 hs, Except.toOption]
    | some c =>
      have hmem := List.mem_of_find?_eq_some hf
      have hc : maxConstant < c.toNat := by simpa using List.find?_some hf
      have hall : value.toList.all (·.toNat ≤ maxConstant) = false :=
        List.all_eq_false.2 ⟨c, hmem, by simpa using hc⟩
      simp [hs, hall, Except.toOption]

end JackToolchain.Jack
