import JackToolchain.Text.Lines

/-!
# Texts that are made of lines and fields

A text that is written line by line, each line made of words with a space between them, is
cut back into the same lines and the same words.

* `IsField`: a text that stands as one word of a line.
* `lines_flatMap`: the lines of a text are those that it was written with.
* `isField_of_mem_fields`: every field of a line that has no comment stands as one word.
* `fields_spaced`: the fields of a line are the words that it was written with.
-/

namespace JackToolchain.Text

variable {cs line rest : List Char} {word : String} {words : List String}

/-- A run of characters without blanks in which no comment starts. -/
structure IsField (word : String) : Prop where
  ne_empty : word.toList ≠ []
  no_blank : ∀ c ∈ word.toList, isBlank c = false
  no_comment : ¬ ['/', '/'] <:+: word.toList

/-- Without a slash no comment starts. -/
theorem IsField.of_no_slash (hne : word.toList ≠ [])
    (hblank : ∀ c ∈ word.toList, isBlank c = false) (hslash : '/' ∉ word.toList) : IsField word :=
  ⟨hne, hblank, fun h => hslash (h.subset List.mem_cons_self)⟩

/-- Whether a text has characters, but no blank and no slash among them. -/
def isSimple (word : String) : Bool :=
  !word.toList.isEmpty && word.toList.all fun c => !isBlank c && c != '/'

theorem isSimple_iff : isSimple word ↔
    word.toList ≠ [] ∧ (∀ c ∈ word.toList, isBlank c = false) ∧ '/' ∉ word.toList := by
  simp only [isSimple, Bool.and_eq_true, Bool.not_eq_true', List.isEmpty_eq_false_iff,
    List.all_eq_true, bne_iff_ne, forall_and]
  exact and_congr_right fun _ => and_congr_right fun _ =>
    ⟨fun h hslash => h '/' hslash rfl, fun h c hc heq => h (heq ▸ hc)⟩

theorem IsField.of_isSimple (h : isSimple word) : IsField word := by
  obtain ⟨hne, hblank, hslash⟩ := isSimple_iff.1 h
  exact .of_no_slash hne hblank hslash

/-! ## Lines -/

theorem unixNewlines_eq_self (h : '\r' ∉ cs) : unixNewlines cs = cs := by
  fun_induction unixNewlines cs with
  | case1 cs ih => exact absurd List.mem_cons_self h
  | case2 c cs _ ih => rw [ih fun hc => h (List.mem_cons_of_mem _ hc)]
  | case3 => rfl

theorem splitLine_append (h : '\n' ∉ line) :
    splitLine (line ++ '\n' :: rest) = (line, some rest) := by
  induction line with
  | nil => rfl
  | cons c cs ih =>
    have hne : c ≠ '\n' := fun hc => h (hc ▸ List.mem_cons_self)
    rw [List.cons_append, splitLine, ih fun hc => h (List.mem_cons_of_mem _ hc)]
    exact hne

theorem withoutCarriageReturn_eq_self (h : '\r' ∉ line) : withoutCarriageReturn line = line := by
  rw [withoutCarriageReturn, if_neg fun hl => h (List.mem_of_getLast? hl)]

/-- A line feed ends a line. -/
theorem lines_append (hn : '\n' ∉ line) :
    lines (line ++ '\n' :: rest) = withoutCarriageReturn line :: lines rest := by
  have hsplit : splitLine (line ++ '\n' :: rest) = (line, some rest) := splitLine_append hn
  rw [lines]
  split
  · next heq =>
    rw [hsplit] at heq
    cases heq
  · next heq =>
    rw [hsplit] at heq
    cases heq
  · next heq =>
    rw [hsplit] at heq
    cases heq
    rfl

/-- The lines of a text are those that it was written with. -/
theorem lines_flatMap {ls : List (List Char)} (h : ∀ line ∈ ls, '\n' ∉ line ∧ '\r' ∉ line) :
    lines (ls.flatMap fun line => line ++ ['\n']) = ls := by
  induction ls with
  | nil =>
    rw [List.flatMap_nil, lines]
    rfl
  | cons line ls ih =>
    obtain ⟨hn, hr⟩ := h line List.mem_cons_self
    rw [List.flatMap_cons, List.append_assoc, List.singleton_append, lines_append hn,
      withoutCarriageReturn_eq_self hr, ih fun line hl => h line (List.mem_cons_of_mem _ hl)]

/-! ## Comments -/

theorem beforeComment_eq_self (h : ¬ ['/', '/'] <:+: cs) : beforeComment cs = cs := by
  fun_induction beforeComment cs with
  | case1 cs => exact absurd ⟨[], cs, rfl⟩ h
  | case2 c cs _ ih => rw [ih fun hi => h (List.infix_cons_iff.2 (.inr hi))]
  | case3 => rfl

theorem beforeComment_isPrefix (cs : List Char) : beforeComment cs <+: cs := by
  fun_induction beforeComment cs with
  | case1 cs => exact List.nil_prefix
  | case2 c cs _ ih => exact List.cons_prefix_cons.2 ⟨rfl, ih⟩
  | case3 => exact List.nil_prefix

/-- What stands before the first comment has none. -/
theorem no_comment_beforeComment (cs : List Char) : ¬ ['/', '/'] <:+: beforeComment cs := by
  fun_induction beforeComment cs with
  | case1 cs => decide
  | case2 c cs hstart ih =>
    intro h
    rcases List.infix_cons_iff.1 h with h | h
    · -- the second slash is the next character of the line itself
      obtain ⟨hc, hrest⟩ := List.cons_prefix_cons.1 h
      obtain ⟨more, rfl⟩ := hrest.trans (beforeComment_isPrefix cs)
      exact hstart more hc.symm rfl
    · exact ih h
  | case3 => decide

/-- No comment starts at the end of a word and goes on behind a space. -/
theorem no_comment_append (hl : ¬ ['/', '/'] <:+: cs) (hr : ¬ ['/', '/'] <:+: rest) :
    ¬ ['/', '/'] <:+: cs ++ ' ' :: rest := by
  induction cs with
  | nil =>
    intro h
    rcases List.infix_cons_iff.1 h with h | h
    · have hfirst := (List.cons_prefix_cons.1 h).1
      exact absurd hfirst (by decide)
    · exact hr h
  | cons c cs ih =>
    intro h
    rcases List.infix_cons_iff.1 h with hstart | hlater
    · obtain ⟨rfl, hsecond⟩ := List.cons_prefix_cons.1 hstart
      cases cs with
      -- a slash at the end of the word has the space behind it
      | nil => exact absurd (List.cons_prefix_cons.1 hsecond).1 (by decide)
      | cons d cs =>
        obtain ⟨rfl, -⟩ := List.cons_prefix_cons.1 hsecond
        exact hl ⟨[], cs, rfl⟩
    · exact ih (fun hi => hl (List.infix_cons_iff.2 (.inr hi))) hlater

/-! ## Fields -/

/-- Words with a space between them. -/
def spaced (words : List String) : List Char :=
  (" ".intercalate words).toList

theorem spaced_singleton (word : String) : spaced [word] = word.toList := by
  simp [spaced]

theorem spaced_cons_cons (word next : String) (words : List String) :
    spaced (word :: next :: words) = word.toList ++ ' ' :: spaced (next :: words) := by
  rw [spaced, spaced, String.toList_intercalate, String.toList_intercalate, List.map_cons,
    List.map_cons, List.intercalate_cons_cons, List.append_assoc]
  rfl

theorem no_comment_spaced (h : ∀ word ∈ words, IsField word) :
    ¬ ['/', '/'] <:+: spaced words := by
  induction words with
  | nil => decide
  | cons word words ih =>
    have hword := (h word List.mem_cons_self).no_comment
    cases words with
    | nil => rwa [spaced_singleton]
    | cons next words =>
      rw [spaced_cons_cons]
      exact no_comment_append hword (ih fun word hw => h word (List.mem_cons_of_mem _ hw))

/-- The only blanks in words with spaces between them are the spaces. -/
theorem eq_space_of_mem_spaced (h : ∀ word ∈ words, IsField word) {c : Char}
    (hc : c ∈ spaced words) (hb : isBlank c) : c = ' ' := by
  induction words with
  | nil => cases hc
  | cons word words ih =>
    have hword (hc : c ∈ word.toList) : c = ' ' := by
      have hblank := (h word List.mem_cons_self).no_blank c hc
      rw [hb] at hblank
      cases hblank
    cases words with
    | nil =>
      rw [spaced_singleton] at hc
      exact hword hc
    | cons next words =>
      rw [spaced_cons_cons, List.mem_append, List.mem_cons] at hc
      rcases hc with hc | hc | hc
      · exact hword hc
      · exact hc
      · exact ih (fun word hw => h word (List.mem_cons_of_mem _ hw)) hc

/-- A word ends where no more of it follows. -/
theorem fields_word (h : IsField word) (offset : Nat)
    (hrest : rest.takeWhile (!isBlank ·) = []) : fields offset (word.toList ++ rest) =
      ⟨offset, word⟩ :: fields (offset + byteSize word.toList) rest := by
  obtain ⟨c, cs, hcs⟩ := List.exists_cons_of_ne_nil h.ne_empty
  have hplain : ∀ d ∈ c :: cs, isBlank d = false := hcs ▸ h.no_blank
  have hc : isBlank c = false := hplain c List.mem_cons_self
  have htail : ∀ d ∈ cs, (!isBlank d) = true := by
    intro d hd
    rw [hplain d (List.mem_cons_of_mem _ hd)]
    rfl
  have htake : (cs ++ rest).takeWhile (!isBlank ·) = cs := by
    rw [List.takeWhile_append_of_pos htail, hrest, List.append_nil]
  have hdrop : (cs ++ rest).dropWhile (!isBlank ·) = rest := by
    rw [List.dropWhile_append_of_pos htail]
    have hsplit := List.takeWhile_append_dropWhile (p := (!isBlank ·)) (l := rest)
    rwa [hrest, List.nil_append] at hsplit
  have hword : String.ofList (c :: cs) = word := by rw [← hcs, String.ofList_toList]
  rw [hcs, List.cons_append, fields, if_neg (by simp [hc]), htake, hdrop]
  dsimp only
  rw [hword]

/-- The fields of a line without a comment stand as words. -/
theorem isField_of_mem_fields {offset : Nat} {field : TextField} (hline : ¬ ['/', '/'] <:+: line)
    (hfield : field ∈ fields offset line) : IsField field.text := by
  fun_induction fields offset line with
  | case1 offset => cases hfield
  | case2 offset c cs hc ih => exact ih (fun h => hline (List.infix_cons h)) hfield
  | case3 offset c cs hc word ih =>
    have hsplit : word ++ cs.dropWhile (!isBlank ·) = c :: cs :=
      congrArg (c :: ·) List.takeWhile_append_dropWhile
    rcases List.mem_cons.1 hfield with rfl | hfield
    · refine ⟨by simp [word], ?_, ?_⟩
      · intro d hd
        rw [String.toList_ofList] at hd
        rcases List.mem_cons.1 hd with rfl | hd
        · simpa using hc
        · simpa using List.all_eq_true.1 List.all_takeWhile d hd
      · rw [String.toList_ofList]
        exact fun h => hline (h.trans ⟨[], _, hsplit⟩)
    · exact ih (fun h => hline (h.trans ⟨word, [], by rw [List.append_nil, hsplit]⟩)) hfield

/-- The fields of a line are the words that it was written with. -/
theorem fields_spaced (h : ∀ word ∈ words, IsField word) (offset : Nat) :
    (fields offset (spaced words)).map TextField.text = words := by
  induction words generalizing offset with
  | nil =>
    have hempty : spaced [] = [] := by decide
    rw [hempty, fields]
    rfl
  | cons word words ih =>
    have hword := h word List.mem_cons_self
    cases words with
    | nil =>
      have hline : fields offset (word.toList ++ []) =
          ⟨offset, word⟩ :: fields (offset + byteSize word.toList) [] :=
        fields_word hword offset rfl
      rw [List.append_nil] at hline
      rw [spaced_singleton, hline, fields]
      rfl
    | cons next words =>
      have hspace : isBlank ' ' = true := by decide
      rw [spaced_cons_cons, fields_word hword offset (by simp [hspace]), fields, if_pos hspace,
        List.map_cons, ih fun word hw => h word (List.mem_cons_of_mem _ hw)]

end JackToolchain.Text
