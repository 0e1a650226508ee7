import Mathlib.Data.Nat.Digits.Defs
import JackToolchain.Proofs.Jack.Words

/-!
# Gaps and slices of a source text

Each token is cut from a slice of its text, and what stands between two slices has no token in
it. Both are said here without the order in which the characters are read.

* `Skipped`, `Gap`: a blank or a comment, and a text of such.
* `Slice`: a piece of a text that is a token.
* `Scan`: a text cut into gaps and slices.
* `lexFrom_gap`, `lexFrom_slice`: a gap is passed over, and a slice is cut off as its token.
* `lexFrom_of_scan`: **a text that is cut has the tokens of its slices**.
-/

namespace JackToolchain.Jack

open Text

/-! ## Gaps -/

/-- A blank or a comment in front of a text. A comment that is not closed runs to the end. -/
inductive Skipped : List Char → List Char → Prop where
  | blank {c : Char} {behind : List Char} (hc : isBlank c) : Skipped [c] behind
  | lineComment {body behind : List Char} (hbody : '\n' ∉ body)
    (hend : ∀ c ∈ behind.head?, c = '\n') : Skipped ('/' :: '/' :: body) behind
  | blockComment {body behind : List Char} (hbody : ¬ ['*', '/'] <:+: body) :
    Skipped ('/' :: '*' :: (body ++ ['*', '/'])) behind
  | openComment {body : List Char} (hbody : ¬ ['*', '/'] <:+: body) :
    Skipped ('/' :: '*' :: body) []

/-- Blanks and comments in front of a text. -/
inductive Gap : List Char → List Char → Prop where
  | nil {behind : List Char} : Gap [] behind
  | cons {piece gap behind : List Char} (hpiece : Skipped piece (gap ++ behind))
    (hgap : Gap gap behind) : Gap (piece ++ gap) behind

/-! ## Slices -/

/-- The number that digits write, the last of them for the ones. -/
def numeral (digits : List Char) : Nat :=
  Nat.ofDigits 10 (digits.reverse.map fun d => d.toNat - '0'.toNat)

/-- Whether a word writes an integer constant. -/
def IsConstant (word : List Char) : Prop :=
  (∀ c ∈ word, c.isDigit) ∧ numeral word ≤ maxConstant

/-- The token that a word is: a keyword if it is reserved, an integer constant if it writes one,
and else an identifier. -/
inductive WordToken (word : List Char) : Token → Prop where
  | keyword {k : Keyword} (hk : k.text.toList = word) : WordToken word (.keyword k)
  | integer (hn : IsConstant word) : WordToken word (.integer (numeral word))
  | identifier (hk : ∀ k : Keyword, k.text.toList ≠ word) (hn : ¬ IsConstant word) :
    WordToken word (.identifier (String.ofList word))

/-- A piece of a text that is a token, in front of the rest of the text. -/
inductive Slice : Token → List Char → List Char → Prop where
  | symbol {s : Punctuation} {behind : List Char}
    (hs : s = .slash → ∀ c ∈ behind.head?, c ≠ '/' ∧ c ≠ '*') : Slice (.symbol s) [s.char] behind
  | string {value behind : List Char} (hvalue : '"' ∉ value) :
    Slice (.string (String.ofList value)) ('"' :: (value ++ ['"'])) behind
  | openString {value : List Char} (hvalue : '"' ∉ value) :
    Slice (.string (String.ofList value)) ('"' :: value) []
  | word {token : Token} {word behind : List Char} (hne : word ≠ [])
    (hplain : ∀ c ∈ word, isSeparator c = false) (hend : ∀ c ∈ behind.head?, isSeparator c)
    (ht : WordToken word token) : Slice token word behind

/-- A text from a byte offset on, cut into gaps and slices. With each token goes the offset
behind its slice. -/
inductive Scan : Nat → List Char → List (Lexeme × Nat) → Prop where
  | done {offset : Nat} {gap : List Char} (hgap : Gap gap []) : Scan offset gap []
  | token {offset start stop : Nat} {gap slice rest : List Char} {token : Token}
    {items : List (Lexeme × Nat)} (hgap : Gap gap (slice ++ rest))
    (hstart : start = offset + byteSize gap) (hslice : Slice token slice rest)
    (hstop : stop = start + byteSize slice) (hrest : Scan stop rest items) :
    Scan offset (gap ++ (slice ++ rest)) ((⟨token, start⟩, stop) :: items)

variable {c : Char} {cs body behind rest piece gap slice value word : List Char}
  {text : List Char} {offset : Nat} {token : Token} {items : List (Lexeme × Nat)}

/-! ## Comments -/

theorem afterBlockComment_cons (h : ¬ ['*', '/'] <+: c :: cs) :
    afterBlockComment (c :: cs) = afterBlockComment cs := by
  rw [afterBlockComment]
  rintro cs' rfl rfl
  exact h ⟨cs', rfl⟩

/-- A comment ends at the first `*/` behind its start. -/
theorem afterBlockComment_append (h : ¬ ['*', '/'] <:+: body) :
    afterBlockComment (body ++ '*' :: '/' :: rest) = rest := by
  induction body with
  | nil => rfl
  | cons c body ih =>
    obtain ⟨hstart, hlater⟩ := not_or.1 (List.infix_cons_iff.not.1 h)
    -- a star at the end of the body has the star of the end behind it
    have hcons : ¬ ['*', '/'] <+: c :: (body ++ '*' :: '/' :: rest) := by
      intro hp
      obtain ⟨rfl, hsecond⟩ := List.cons_prefix_cons.1 hp
      cases body with
      | nil => exact absurd (List.cons_prefix_cons.1 hsecond).1 (by decide)
      | cons d body =>
        obtain ⟨rfl, -⟩ := List.cons_prefix_cons.1 hsecond
        exact hstart ⟨body, rfl⟩
    rw [List.cons_append, afterBlockComment_cons hcons, ih hlater]

theorem afterBlockComment_open (h : ¬ ['*', '/'] <:+: body) : afterBlockComment body = [] := by
  induction body with
  | nil => rfl
  | cons c body ih =>
    obtain ⟨hstart, hlater⟩ := not_or.1 (List.infix_cons_iff.not.1 h)
    rw [afterBlockComment_cons hstart, ih hlater]

/-- A comment ends at its first `*/`, or it takes the whole text. -/
theorem exists_body (cs : List Char) : ∃ body, ¬ ['*', '/'] <:+: body ∧
    (cs = body ++ '*' :: '/' :: afterBlockComment cs ∨ cs = body ∧ afterBlockComment cs = []) := by
  fun_induction afterBlockComment cs with
  | case1 cs => exact ⟨[], by simp, .inl rfl⟩
  | case2 c cs hopen ih =>
    obtain ⟨body, hbody, hcs⟩ := ih
    -- no end of a comment starts at `c`, whichever way the body goes on
    have hcons : ¬ ['*', '/'] <:+: c :: body := by
      intro h
      refine hbody ((List.infix_cons_iff.1 h).resolve_left fun hp => ?_)
      obtain ⟨rfl, more, rfl⟩ := List.cons_prefix_cons.1 hp
      rcases hcs with hcs | ⟨rfl, -⟩
      · exact hopen _ rfl hcs
      · exact hopen _ rfl rfl
    refine ⟨c :: body, hcons, ?_⟩
    rcases hcs with hcs | ⟨hcs, hnil⟩
    · exact .inl (by rw [List.cons_append, ← hcs])
    · exact .inr ⟨by rw [hcs], hnil⟩
  | case3 => exact ⟨[], by simp, .inr ⟨rfl, rfl⟩⟩

/-! ## Steps of the cut -/

/-- A run of characters ends where another one follows. -/
theorem span_append {p : Char → Bool} (word behind : List Char) (hw : ∀ c ∈ word, p c)
    (hb : ∀ c ∈ behind.head?, p c = false) :
    (word ++ behind).takeWhile p = word ∧ (word ++ behind).dropWhile p = behind := by
  rw [List.takeWhile_append_of_pos hw, List.dropWhile_append_of_pos hw]
  cases behind with
  | nil => simp
  | cons c behind =>
    have hc := hb c rfl
    simp [hc]

theorem span_append_stop {stop : Char} (word behind : List Char) (hw : stop ∉ word)
    (hb : ∀ c ∈ behind.head?, c = stop) :
    (word ++ behind).takeWhile (· != stop) = word ∧
      (word ++ behind).dropWhile (· != stop) = behind := by
  refine span_append word behind (fun c hc => ?_) (fun c hc => ?_)
  · exact bne_iff_ne.2 fun heq => hw (heq ▸ hc)
  · simp [hb c hc]

/-- Blanks and comments are passed over. -/
theorem lexFrom_skipped (h : Skipped piece behind) :
    lexFrom offset (piece ++ behind) = lexFrom (offset + byteSize piece) behind := by
  have hslash : '/'.utf8Size = 1 := rfl
  have hstar : '*'.utf8Size = 1 := rfl
  cases h with
  | @blank c _ hc =>
    rw [List.singleton_append, lexFrom, if_pos hc]
    · rfl
    · rintro - rfl
      exact absurd hc (by decide)
    · rintro - rfl
      exact absurd hc (by decide)
    · rintro rfl
      exact absurd hc (by decide)
  | @lineComment body _ hbody hend =>
    obtain ⟨htake, hdrop⟩ := span_append_stop body behind hbody hend
    rw [List.cons_append, List.cons_append, lexFrom, htake, hdrop, byteSize_cons, byteSize_cons,
      hslash]
    congr 1
    omega
  | @blockComment body _ hbody =>
    have hsplit : body ++ '*' :: '/' :: behind = (body ++ ['*', '/']) ++ behind := by simp
    have htake : ((body ++ ['*', '/']) ++ behind).take
        (((body ++ ['*', '/']) ++ behind).length - behind.length) = body ++ ['*', '/'] := by
      rw [List.length_append, Nat.add_sub_cancel, List.take_left]
    rw [List.cons_append, List.cons_append, ← hsplit, lexFrom, afterBlockComment_append hbody,
      hsplit, htake, byteSize_cons, byteSize_cons, hslash, hstar]
    congr 1
    omega
  | openComment hbody =>
    conv_lhs => rw [List.append_nil, lexFrom, afterBlockComment_open hbody]
    conv_lhs => rw [lexFrom]
    rw [lexFrom]

theorem lexFrom_gap (h : Gap gap behind) :
    lexFrom offset (gap ++ behind) = lexFrom (offset + byteSize gap) behind := by
  induction h generalizing offset with
  | nil => rfl
  | cons hpiece hgap ih => rw [List.append_assoc, lexFrom_skipped hpiece, ih, byteSize_append,
      Nat.add_assoc]

theorem lexFrom_gap_nil (h : Gap gap []) : lexFrom offset gap = [] := by
  have hend : lexFrom offset (gap ++ []) = lexFrom (offset + byteSize gap) [] := lexFrom_gap h
  rw [List.append_nil] at hend
  rw [hend, lexFrom]

/-! ## Words -/

theorem decimalValue_eq_numeral (digits : List Char) : decimalValue 0 digits = numeral digits := by
  rw [numeral, Nat.ofDigits_eq_foldr, List.foldr_map, List.foldr_reverse, decimalValue]
  exact congrArg (fun f => List.foldl f 0 digits) (funext₂ fun n d => Nat.add_comm _ _)

theorem decimal?_eq_some_iff {n : Nat} (hne : word ≠ []) :
    decimal? word = some n ↔ (∀ c ∈ word, c.isDigit) ∧ numeral word = n := by
  rw [decimal?, Option.ite_none_right_eq_some, Option.some_inj, decimalValue_eq_numeral,
    List.all_eq_true, and_iff_right hne]

theorem ofText?_ofList_eq_some_iff {k : Keyword} :
    Keyword.ofText? (String.ofList word) = some k ↔ k.text.toList = word := by
  rw [Keyword.ofText?_eq_some_iff, ← String.toList_inj, String.toList_ofList]

/-- A word is the token that it is read as. -/
theorem wordToken_ofWord (hne : word ≠ []) : WordToken word (Token.ofWord word) := by
  unfold Token.ofWord
  dsimp only
  split
  · next k hk => exact .keyword (ofText?_ofList_eq_some_iff.1 hk)
  · next hk =>
    have hkeyword (k : Keyword) : k.text.toList ≠ word := by
      intro h
      rw [ofText?_ofList_eq_some_iff.2 h] at hk
      cases hk
    split
    · next n hn =>
      obtain ⟨hdigits, rfl⟩ := (decimal?_eq_some_iff hne).1 hn
      split
      · next hle => exact .integer ⟨hdigits, hle⟩
      · next hle => exact .identifier hkeyword fun h => hle h.2
    · next hn =>
      refine .identifier hkeyword fun h => ?_
      rw [(decimal?_eq_some_iff hne).2 ⟨h.1, rfl⟩] at hn
      cases hn

theorem not_isConstant_keyword (k : Keyword) : ¬ IsConstant k.text.toList := by
  have hletter : k.text.toList.all Char.isDigit = false := by
    cases k <;> decide
  rintro ⟨hdigits, -⟩
  rw [List.all_eq_true.2 hdigits] at hletter
  cases hletter

/-- A word is one token. -/
theorem WordToken.unique {other : Token} (h : WordToken word token) (h' : WordToken word other) :
    token = other := by
  cases h with
  | keyword hk =>
    subst hk
    cases h' with
    | keyword hk' => rw [Keyword.text_injective (String.toList_inj.1 hk')]
    | integer hn => exact absurd hn (not_isConstant_keyword _)
    | identifier hk' _ => exact absurd rfl (hk' _)
  | integer hn =>
    cases h' with
    | keyword hk' => exact absurd (hk' ▸ hn) (not_isConstant_keyword _)
    | integer _ => rfl
    | identifier _ hn' => exact absurd hn hn'
  | identifier hk hn =>
    cases h' with
    | keyword hk' => exact absurd hk' (hk _)
    | integer hn' => exact absurd hn' hn
    | identifier _ _ => rfl

/-! ## Slices are tokens -/

theorem not_isSeparator_iff : isSeparator c = false ↔
    isBlank c = false ∧ c ≠ '"' ∧ Punctuation.ofChar? c = none := by
  simp [isSeparator, and_assoc]

theorem Punctuation.isBlank_char (s : Punctuation) : isBlank s.char = false := by
  cases s <;> decide

theorem Punctuation.char_ne_quote (s : Punctuation) : s.char ≠ '"' := by
  cases s <;> decide

theorem lexFrom_symbol {s : Punctuation}
    (hs : s = .slash → ∀ c ∈ behind.head?, c ≠ '/' ∧ c ≠ '*') :
    lexFrom offset (s.char :: behind) =
      ⟨.symbol s, offset⟩ :: lexFrom (offset + s.char.utf8Size) behind := by
  have hfirst {d : Char} {more : List Char} (hc : s.char = '/') (hb : behind = d :: more) :
      d ≠ '/' ∧ d ≠ '*' := by
    refine hs (Punctuation.char_injective hc) d ?_
    rw [hb]
    rfl
  have hsymbol : Punctuation.ofChar? s.char = some s := Punctuation.ofChar?_eq_some_iff.2 rfl
  rw [lexFrom, if_neg (by simp [s.isBlank_char]), hsymbol]
  · intro more hc hb
    exact (hfirst hc hb).1 rfl
  · intro more hc hb
    exact (hfirst hc hb).2 rfl
  · exact s.char_ne_quote

theorem lexFrom_word (hne : word ≠ []) (hplain : ∀ c ∈ word, isSeparator c = false)
    (hend : ∀ c ∈ behind.head?, isSeparator c) : lexFrom offset (word ++ behind) =
      ⟨Token.ofWord word, offset⟩ :: lexFrom (offset + byteSize word) behind := by
  obtain ⟨c, cs, rfl⟩ := List.exists_cons_of_ne_nil hne
  obtain ⟨hblank, hquote, hsymbol⟩ := not_isSeparator_iff.1 (hplain c List.mem_cons_self)
  have hslash : c ≠ '/' := by
    rintro rfl
    cases hsymbol
  obtain ⟨htake, hdrop⟩ := span_append (p := (!isSeparator ·)) cs behind
    (fun d hd => by simp [hplain d (List.mem_cons_of_mem _ hd)])
    (fun d hd => by simp [hend d hd])
  rw [List.cons_append, lexFrom, if_neg (by simp [hblank]), hsymbol]
  · simp only [htake, hdrop]
  · exact fun _ hc _ => hslash hc
  · exact fun _ hc _ => hslash hc
  · exact hquote

/-- A slice is cut off as its token. -/
theorem lexFrom_slice (h : Slice token slice behind) : lexFrom offset (slice ++ behind) =
    ⟨token, offset⟩ :: lexFrom (offset + byteSize slice) behind := by
  have hquote : '"'.utf8Size = 1 := rfl
  cases h with
  | symbol hs => exact lexFrom_symbol hs
  | @string value _ hvalue =>
    obtain ⟨htake, hdrop⟩ := span_append_stop value ('"' :: behind) hvalue (by simp)
    rw [List.cons_append, List.append_assoc, List.singleton_append, lexFrom, htake, hdrop,
      byteSize_cons, byteSize_append, byteSize_cons, byteSize_nil, hquote]
    congr 2
    omega
  | @openString value hvalue =>
    obtain ⟨htake, hdrop⟩ := span_append_stop value [] hvalue (by simp)
    rw [List.append_nil] at htake hdrop
    conv_lhs => rw [List.append_nil, lexFrom, htake, hdrop, List.drop_nil, lexFrom]
    rw [lexFrom]
  | word hne hplain hend ht =>
    rw [lexFrom_word hne hplain hend, ht.unique (wordToken_ofWord hne)]

/-- **A text that is cut into gaps and slices has the tokens of the slices.** -/
theorem lexFrom_of_scan (h : Scan offset text items) :
    lexFrom offset text = items.map Prod.fst := by
  induction h with
  | done hgap => rw [lexFrom_gap_nil hgap, List.map_nil]
  | token hgap hstart hslice hstop hrest ih =>
    subst hstart hstop
    rw [lexFrom_gap hgap, lexFrom_slice hslice, ih]
    rfl

end JackToolchain.Jack
