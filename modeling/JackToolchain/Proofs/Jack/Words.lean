import JackToolchain.Jack.Lexer
import JackToolchain.Proofs.Text.Joined

/-!
# The words of a source text

* `IsPlain`: a text that stands as one word.
* `IsName`: what every identifier of a source text is.
* `isWord_of_mem_lex`: every identifier of a source text is a name, and every integer
  constant can be written.
* `ne_toString_of_mem_lex`: an identifier is no number.
-/

namespace JackToolchain.Jack

open Text

/-- A run of characters that separate nothing. -/
structure IsPlain (text : String) : Prop where
  ne_empty : text.toList ≠ []
  plain : ∀ c ∈ text.toList, isSeparator c = false

theorem IsPlain.of_all {text : String}
    (h : (!text.toList.isEmpty && text.toList.all (!isSeparator ·)) = true) : IsPlain text := by
  simp only [Bool.and_eq_true, Bool.not_eq_true', List.isEmpty_eq_false_iff,
    List.all_eq_true] at h
  exact ⟨h.1, h.2⟩

/-- A word that is no keyword. -/
structure IsName (name : String) : Prop extends IsPlain name where
  not_keyword : Keyword.ofText? name = none

/-- Whether a token can stand for a word of a source text. -/
def Token.IsWord : Token → Prop
  | .identifier name => IsName name
  | .integer value => value ≤ maxConstant
  | _ => True

theorem isWord_ofWord {word : List Char} (hne : word ≠ [])
    (hplain : ∀ c ∈ word, isSeparator c = false) : (Token.ofWord word).IsWord := by
  have hname (hk : Keyword.ofText? (String.ofList word) = none) : IsName (String.ofList word) := by
    refine ⟨⟨?_, ?_⟩, hk⟩
    · rw [String.toList_ofList]
      exact hne
    · rw [String.toList_ofList]
      exact hplain
  unfold Token.ofWord
  dsimp only
  split
  · trivial
  · next hk =>
    split
    · split
      · next hn => exact hn
      · exact hname hk
    · exact hname hk

/-- What holds of strings, symbols and words holds of every token of a text. -/
theorem forall_mem_lexFrom {P : Token → Prop} (hstring : ∀ value, P (.string value))
    (hsymbol : ∀ symbol, P (.symbol symbol))
    (hword : ∀ word, word ≠ [] → (∀ c ∈ word, isSeparator c = false) → P (Token.ofWord word))
    (offset : Nat) (text : List Char) : ∀ l ∈ lexFrom offset text, P l.token := by
  fun_induction lexFrom offset text with
  | case1 => simp
  | case2 offset cs comment ih => exact ih
  | case3 offset cs rest ih => exact ih
  | case4 offset cs value ih =>
    intro l hl
    rcases List.mem_cons.1 hl with rfl | hl
    · exact hstring _
    · exact ih l hl
  | case5 offset c cs _ _ _ hc ih => exact ih
  | case6 offset c cs _ _ _ hc s hs ih =>
    intro l hl
    rcases List.mem_cons.1 hl with rfl | hl
    · exact hsymbol s
    · exact ih l hl
  | case7 offset c cs _ _ hquote hc hs word ih =>
    intro l hl
    rcases List.mem_cons.1 hl with rfl | hl
    · refine hword _ (List.cons_ne_nil _ _) fun d hd => ?_
      rcases List.mem_cons.1 hd with rfl | hd
      · have hne : d ≠ '"' := fun h => hquote h
        simp [isSeparator, hc, hs, hne]
      · have hplain := List.all_eq_true.1 List.all_takeWhile d hd
        simpa using hplain
    · exact ih l hl

/-- Every identifier of a source text is a name. -/
theorem isWord_of_mem_lex {source : String} {token : Token}
    (ht : token ∈ (lex source).map Lexeme.token) : token.IsWord := by
  obtain ⟨l, hl, rfl⟩ := List.mem_map.1 ht
  exact forall_mem_lexFrom (fun _ => trivial) (fun _ => trivial) (fun _ => isWord_ofWord)
    0 source.toList l hl

/-- An identifier of a source text is no number that a constant can have. -/
theorem ne_toString_of_mem_lex {source name : String}
    (ht : .identifier name ∈ (lex source).map Lexeme.token) {n : Nat} (hn : n ≤ maxConstant) :
    name ≠ toString n := by
  obtain ⟨l, hl, htoken⟩ := List.mem_map.1 ht
  refine forall_mem_lexFrom (P := fun token => token = .identifier name → name ≠ toString n)
    nofun nofun ?_ 0 source.toList l hl htoken
  rintro word - - hword rfl
  unfold Token.ofWord at hword
  dsimp only at hword
  -- a word that writes the number is read as an integer constant
  have hdecimal (hname : String.ofList word = toString n) : decimal? word = some n := by
    rw [← decimal?_toString n, ← hname, String.toList_ofList]
  split at hword
  · cases hword
  · split at hword
    · next m hm =>
      split at hword
      · cases hword
      · next hlarge =>
        rw [hdecimal (Token.identifier.inj hword), Option.some_inj] at hm
        exact hlarge (hm ▸ hn)
    · next hnone =>
      rw [hdecimal (Token.identifier.inj hword)] at hnone
      cases hnone

end JackToolchain.Jack
