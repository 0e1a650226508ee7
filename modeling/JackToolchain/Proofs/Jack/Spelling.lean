import JackToolchain.Proofs.Jack.Slices

/-!
# Writing tokens

Tokens are written with layout around them, which is blanks and comments that are closed. The
text that comes out is cut into the same tokens, each at the place where it was written.

* `Token.spelling`: a token as a source text writes it.
* `Token.IsPrintable`: whether a token is what its spelling is read as.
* `Separates`: the layouts that keep two spellings apart.
* `written`: tokens with a layout in front of, between and behind them.
* `lex_written`: **what is written is read back**.
-/

namespace JackToolchain.Jack

open Text

variable {first separator : String} {layout behind : List Char} {token : Token} {offset : Nat}

/-! ## Spellings -/

/-- A token as a source text writes it. -/
def Token.spelling : Token → String
  | .identifier name => name
  | .integer value => toString value
  | .keyword k => k.text
  | .string value => "\"" ++ value ++ "\""
  | .symbol s => s.text

/-- Whether a token is what its spelling is read as. -/
def Token.IsPrintable : Token → Prop
  | .identifier name => IsName name ∧ ¬ IsConstant name.toList
  | .integer value => value ≤ maxConstant
  | .string value => '"' ∉ value.toList
  | _ => True

theorem isSeparator_of_isBlank {c : Char} (hc : isBlank c) : isSeparator c := by
  simp [isSeparator, hc]

theorem isSeparator_of_isDigit {c : Char} (hc : c.isDigit) : isSeparator c = false := by
  refine not_isSeparator_iff.2 ⟨isBlank_of_isDigit hc, ?_, ?_⟩
  · rintro rfl
    cases hc
  · refine Option.eq_none_iff_forall_ne_some.2 fun s hs => ?_
    obtain rfl := Punctuation.ofChar?_eq_some_iff.1 hs
    cases s <;> cases hc

theorem Keyword.isPlain_text (k : Keyword) : IsPlain k.text :=
  .of_all (by cases k <;> decide)

theorem isPlain_toString (n : Nat) : IsPlain (toString n) :=
  ⟨toList_toString_ne_nil n, fun _ hc => isSeparator_of_isDigit (isDigit_of_mem_toString hc)⟩

/-- A word of which one knows what it is read as is a slice in front of a blank. -/
theorem slice_of_isPlain {text : String} (ht : IsPlain text) (hw : WordToken text.toList token)
    (hb : ∀ c ∈ behind.head?, isBlank c) : Slice token text.toList behind :=
  .word ht.ne_empty ht.plain (fun c hc => isSeparator_of_isBlank (hb c hc)) hw

/-- A spelling in front of a blank is a slice. -/
theorem slice_spelling (ht : token.IsPrintable) (hb : ∀ c ∈ behind.head?, isBlank c) :
    Slice token token.spelling.toList behind := by
  cases token with
  | identifier name =>
    obtain ⟨hname, hconstant⟩ := ht
    refine slice_of_isPlain hname.toIsPlain ?_ hb
    have hkeyword (k : Keyword) : k.text.toList ≠ name.toList := by
      intro hk
      have hsome := Keyword.ofText?_eq_some_iff.2 (String.toList_inj.1 hk)
      rw [hname.not_keyword] at hsome
      cases hsome
    have hword := WordToken.identifier hkeyword hconstant
    rwa [String.ofList_toList] at hword
  | integer value =>
    refine slice_of_isPlain (isPlain_toString value) ?_ hb
    obtain ⟨hdigits, hvalue⟩ :=
      (decimal?_eq_some_iff (toList_toString_ne_nil value)).1 (decimal?_toString value)
    have hword : WordToken (toString value).toList (.integer (numeral (toString value).toList)) :=
      .integer ⟨hdigits, hvalue.symm ▸ ht⟩
    rwa [hvalue] at hword
  | keyword k => exact slice_of_isPlain k.isPlain_text (.keyword rfl) hb
  | string value =>
    have hslice : Slice (.string (String.ofList value.toList)) ('"' :: (value.toList ++ ['"']))
        behind := .string ht
    rw [String.ofList_toList] at hslice
    simpa [Token.spelling] using hslice
  | symbol s =>
    have htext : (Token.symbol s).spelling.toList = [s.char] := by
      simp [Token.spelling, Punctuation.text]
    rw [htext]
    refine .symbol fun _ c hc => ⟨?_, ?_⟩
    · rintro rfl
      exact absurd (hb _ hc) (by decide)
    · rintro rfl
      exact absurd (hb _ hc) (by decide)

/-! ## Layout -/

/-- A text of blanks, of line comments with their newline, and of closed block comments. -/
inductive IsLayout : List Char → Prop where
  | nil : IsLayout []
  | blank {c : Char} {layout : List Char} (hc : isBlank c) (hl : IsLayout layout) :
    IsLayout (c :: layout)
  | lineComment {body layout : List Char} (hbody : '\n' ∉ body) (hl : IsLayout layout) :
    IsLayout ('/' :: '/' :: (body ++ '\n' :: layout))
  | blockComment {body layout : List Char} (hbody : ¬ ['*', '/'] <:+: body)
    (hl : IsLayout layout) : IsLayout ('/' :: '*' :: (body ++ '*' :: '/' :: layout))

theorem IsLayout.gap (h : IsLayout layout) : Gap layout behind := by
  induction h with
  | nil => exact .nil
  | blank hc hl ih => exact .cons (.blank hc) ih
  | @lineComment body layout hbody hl ih =>
    have hnewline : Gap ('\n' :: layout) behind := .cons (.blank (by decide)) ih
    exact .cons (.lineComment hbody (by simp)) hnewline
  | @blockComment body layout hbody hl ih =>
    have htext : '/' :: '*' :: (body ++ '*' :: '/' :: layout) =
        ('/' :: '*' :: (body ++ ['*', '/'])) ++ layout := by simp
    rw [htext]
    exact .cons (.blockComment hbody) ih

/-- A layout that keeps what is in front of it apart from what is behind it. -/
structure Separates (text : String) : Prop where
  starts : ∃ c cs, text.toList = c :: cs ∧ isBlank c
  layout : IsLayout text.toList

theorem Separates.isBlank_head? {text : String} (h : Separates text) (cs : List Char) :
    ∀ c ∈ (text.toList ++ cs).head?, isBlank c := by
  obtain ⟨c, more, htext, hc⟩ := h.starts
  rw [htext]
  simpa using hc

/-! ## Written tokens -/

/-- Tokens behind a first layout, each with its own layout behind it. -/
def written (first : String) (items : List (Token × String)) : String :=
  first ++ String.join (items.map fun i => i.1.spelling ++ i.2)

variable {items : List (Token × String)}

@[simp] theorem written_nil : written first [] = first := by
  simp [written]

theorem written_cons : written first ((token, separator) :: items) =
    first ++ token.spelling ++ written separator items := by
  simp [written, String.append_assoc]

/-- The text of what is written starts with the first layout. -/
theorem exists_toList_written (first : String) (items : List (Token × String)) :
    ∃ cs, (written first items).toList = first.toList ++ cs :=
  ⟨_, String.toList_append⟩

/-- Written tokens are read back from any offset on. -/
theorem lexFrom_written (hfirst : Separates first)
    (hitems : ∀ i ∈ items, i.1.IsPrintable ∧ Separates i.2) :
    lexFrom offset (written first items).toList = items.mapIdx fun n i =>
      ⟨i.1, offset + (written first (items.take n)).utf8ByteSize⟩ := by
  induction items generalizing first offset with
  | nil =>
    rw [written_nil, lexFrom_gap_nil hfirst.layout.gap, List.mapIdx_nil]
  | cons item items ih =>
    obtain ⟨token, separator⟩ := item
    obtain ⟨⟨htoken, hseparator⟩, hitems⟩ := List.forall_mem_cons.1 hitems
    obtain ⟨cs, hcs⟩ := exists_toList_written separator items
    have hblank : ∀ c ∈ (written separator items).toList.head?, isBlank c := by
      rw [hcs]
      exact hseparator.isBlank_head? cs
    rw [written_cons, String.toList_append, String.toList_append, List.append_assoc,
      lexFrom_gap hfirst.layout.gap, lexFrom_slice (slice_spelling htoken hblank),
      ih hseparator hitems, byteSize_toList, byteSize_toList, List.mapIdx_cons]
    simp [written_cons, Nat.add_assoc]

/-- **What is written is read back.** Each token comes back at the byte offset at which its
spelling was placed, whatever the layouts around it are. -/
theorem lex_written (hfirst : Separates first)
    (hitems : ∀ i ∈ items, i.1.IsPrintable ∧ Separates i.2) :
    lex (written first items) = items.mapIdx fun n i =>
      ⟨i.1, (written first (items.take n)).utf8ByteSize⟩ := by
  rw [lex, lexFrom_written hfirst hitems]
  simp only [Nat.zero_add]

/-- Symbols next to comments, a string that holds comments, a number that is none, and characters
of two bytes. -/
theorem lex_written_commented :
    let first := " /*/**/"
    let items : List (Token × String) := [(.symbol .slash, "\n//*\n"),
      (.symbol .asterisk, "\t/***/"), (.string "/* // */", " "), (.identifier "größe", "\u00a0"),
      (.integer 32767, "\n"), (.identifier "32768", " ")]
    (Separates first ∧ ∀ i ∈ items, i.1.IsPrintable ∧ Separates i.2) ∧
      lex (written first items) = [⟨.symbol .slash, 7⟩, ⟨.symbol .asterisk, 13⟩,
        ⟨.string "/* // */", 20⟩, ⟨.identifier "größe", 31⟩, ⟨.integer 32767, 40⟩,
        ⟨.identifier "32768", 46⟩] := by
  intro first items
  have hblank {text : String} (c : Char) (ht : text.toList = [c]) (hc : isBlank c) :
      Separates text :=
    ⟨⟨c, [], ht, hc⟩, by rw [ht]; exact .blank hc .nil⟩
  have hfirst : Separates " /*/**/" := ⟨⟨' ', _, rfl, by decide⟩, .blank (by decide)
    (@IsLayout.blockComment ['/', '*'] [] (by decide) .nil)⟩
  have hline : Separates "\n//*\n" := ⟨⟨'\n', _, rfl, by decide⟩, .blank (by decide)
    (@IsLayout.lineComment ['*'] [] (by decide) .nil)⟩
  have hblock : Separates "\t/***/" := ⟨⟨'\t', _, rfl, by decide⟩, .blank (by decide)
    (@IsLayout.blockComment ['*'] [] (by decide) .nil)⟩
  have hitems : ∀ i ∈ items, i.1.IsPrintable ∧ Separates i.2 := by
    simp only [items, List.forall_mem_cons]
    refine ⟨⟨trivial, hline⟩, ⟨trivial, hblock⟩, ⟨?_, hblank ' ' rfl (by decide)⟩,
      ⟨⟨⟨.of_all (by decide), by decide⟩, ?_⟩, hblank '\u00a0' rfl (by decide)⟩,
      ⟨?_, hblank '\n' rfl (by decide)⟩,
      ⟨⟨⟨.of_all (by decide), by decide⟩, ?_⟩, hblank ' ' rfl (by decide)⟩, nofun⟩
    · show '"' ∉ "/* // */".toList
      decide
    · exact fun h => absurd (h.1 'g' (by decide)) (by decide)
    · show 32767 ≤ maxConstant
      decide
    · exact fun h => absurd h.2 (by decide +kernel)
  exact ⟨⟨hfirst, hitems⟩, (lex_written hfirst hitems).trans (by decide +kernel)⟩

end JackToolchain.Jack
