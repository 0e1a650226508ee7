import JackToolchain.Proofs.Jack.Slices

/-!
# Every source text is cut into gaps and slices

The tokens of a text leave nothing of it out: the characters that are in none of them are in
blanks and comments.

* `scan_lexFrom`: a text is cut into gaps and the slices of its tokens.
* `Apart`: no word goes on from one text to the next.
* `Between`: what stands between two byte offsets of a text.
* `lex_slices`: **nothing of a text is lost and no token is invented**.
-/

namespace JackToolchain.Jack

open Text

variable {c : Char} {cs behind piece gap slice text : List Char} {offset : Nat} {token : Token}
  {items : List (Lexeme × Nat)}

/-! ## Every text is cut -/

theorem Scan.skip (h : Scan (offset + byteSize piece) text items) (hpiece : Skipped piece text) :
    Scan offset (piece ++ text) items := by
  cases h with
  | done hgap => exact .done (.cons (by rwa [List.append_nil]) hgap)
  | token hgap hstart hslice hstop hrest =>
    rw [← List.append_assoc]
    refine .token (.cons hpiece hgap) ?_ hslice hstop hrest
    rw [hstart, byteSize_append, Nat.add_assoc]

theorem Scan.take (h : Scan (offset + byteSize slice) text items)
    (hslice : Slice token slice text) :
    Scan offset (slice ++ text) ((⟨token, offset⟩, offset + byteSize slice) :: items) :=
  .token .nil rfl hslice rfl h

theorem eq_of_mem_head?_dropWhile {stop : Char} (cs : List Char)
    (hc : c ∈ (cs.dropWhile (· != stop)).head?) : c = stop := by
  have h := List.head?_dropWhile_not (· != stop) cs
  rw [hc] at h
  simpa using h

theorem not_mem_takeWhile (stop : Char) (cs : List Char) : stop ∉ cs.takeWhile (· != stop) := by
  intro h
  have hne := List.all_eq_true.1 List.all_takeWhile stop h
  simp at hne

theorem skipped_line (cs : List Char) :
    Skipped ('/' :: '/' :: cs.takeWhile (· != '\n')) (cs.dropWhile (· != '\n')) :=
  .lineComment (not_mem_takeWhile '\n' cs) fun _ hc => eq_of_mem_head?_dropWhile cs hc

theorem skipped_block (cs : List Char) : ∃ comment, cs = comment ++ afterBlockComment cs ∧
    Skipped ('/' :: '*' :: comment) (afterBlockComment cs) := by
  obtain ⟨body, hbody, hcs | ⟨hcs, hnil⟩⟩ := exists_body cs
  · exact ⟨body ++ ['*', '/'], by simpa using hcs, .blockComment hbody⟩
  · rw [hnil]
    exact ⟨body, by rw [hcs, List.append_nil], .openComment hbody⟩

/-- A string is cut off with its quotes, the second of which may be missing at the end. -/
theorem slice_string (cs : List Char) :
    (∃ rest, cs.dropWhile (· != '"') = '"' :: rest ∧
      Slice (.string (String.ofList (cs.takeWhile (· != '"'))))
        ('"' :: (cs.takeWhile (· != '"') ++ ['"'])) rest) ∨
    (cs.dropWhile (· != '"') = [] ∧
      Slice (.string (String.ofList (cs.takeWhile (· != '"')))) ('"' :: cs.takeWhile (· != '"'))
        []) := by
  cases hrest : cs.dropWhile (· != '"') with
  | nil => exact .inr ⟨rfl, .openString (not_mem_takeWhile '"' cs)⟩
  | cons c rest =>
    have hc : c = '"' := eq_of_mem_head?_dropWhile cs (by rw [hrest]; rfl)
    rw [hc]
    exact .inl ⟨rest, rfl, .string (not_mem_takeWhile '"' cs)⟩

theorem slice_word (hblank : isBlank c = false) (hquote : c ≠ '"')
    (hsymbol : Punctuation.ofChar? c = none) (cs : List Char) :
    Slice (Token.ofWord (c :: cs.takeWhile (!isSeparator ·)))
      (c :: cs.takeWhile (!isSeparator ·)) (cs.dropWhile (!isSeparator ·)) := by
  refine .word (List.cons_ne_nil _ _) ?_ ?_ (wordToken_ofWord (List.cons_ne_nil _ _))
  · intro d hd
    rcases List.mem_cons.1 hd with rfl | hd
    · exact not_isSeparator_iff.2 ⟨hblank, hquote, hsymbol⟩
    · have hplain := List.all_eq_true.1 List.all_takeWhile d hd
      simpa using hplain
  · intro d hd
    have h := List.head?_dropWhile_not (!isSeparator ·) cs
    rw [hd] at h
    simpa using h

/-- **A text is cut into gaps and slices, and its tokens are those of the slices.** -/
theorem scan_lexFrom (offset : Nat) (text : List Char) :
    ∃ items, items.map Prod.fst = lexFrom offset text ∧ Scan offset text items := by
  have hslash : '/'.utf8Size = 1 := rfl
  have hstar : '*'.utf8Size = 1 := rfl
  have hquote : '"'.utf8Size = 1 := rfl
  fun_induction lexFrom offset text with
  | case1 offset => exact ⟨[], rfl, .done .nil⟩
  | case2 offset cs comment ih =>
    obtain ⟨items, hitems, hscan⟩ := ih
    refine ⟨items, hitems, ?_⟩
    have hsize : offset + 2 + byteSize comment =
        offset + byteSize ('/' :: '/' :: comment) := by
      rw [byteSize_cons, byteSize_cons, hslash]
      omega
    rw [hsize] at hscan
    have htext : '/' :: '/' :: cs = ('/' :: '/' :: comment) ++ cs.dropWhile (· != '\n') := by
      rw [List.cons_append, List.cons_append, List.takeWhile_append_dropWhile]
    rw [htext]
    exact hscan.skip (skipped_line cs)
  | case3 offset cs rest ih =>
    obtain ⟨items, hitems, hscan⟩ := ih
    refine ⟨items, hitems, ?_⟩
    obtain ⟨comment, hcs, hpiece⟩ := skipped_block cs
    have htake : cs.take (cs.length - rest.length) = comment := by
      conv_lhs => rw [hcs, List.length_append, Nat.add_sub_cancel, List.take_left]
    have hsize : offset + 2 + byteSize (cs.take (cs.length - rest.length)) =
        offset + byteSize ('/' :: '*' :: comment) := by
      rw [htake, byteSize_cons, byteSize_cons, hslash, hstar]
      omega
    rw [hsize] at hscan
    have htext : '/' :: '*' :: cs = ('/' :: '*' :: comment) ++ rest := by
      rw [List.cons_append, List.cons_append, ← hcs]
    rw [htext]
    exact hscan.skip hpiece
  | case4 offset cs value ih =>
    obtain ⟨items, hitems, hscan⟩ := ih
    have htext : '"' :: cs = '"' :: (value ++ cs.dropWhile (· != '"')) := by
      rw [List.takeWhile_append_dropWhile]
    rw [htext]
    rcases slice_string cs with ⟨rest, hdrop, hslice⟩ | ⟨hdrop, hslice⟩
    · have hsize : offset + 2 + byteSize value = offset + byteSize ('"' :: (value ++ ['"'])) := by
        rw [byteSize_cons, byteSize_append, byteSize_cons, byteSize_nil, hquote]
        omega
      have hsplit : '"' :: (value ++ '"' :: rest) = ('"' :: (value ++ ['"'])) ++ rest := by simp
      rw [hdrop, List.drop_succ_cons, List.drop_zero] at hitems hscan ⊢
      rw [hsize] at hscan
      rw [hsplit]
      exact ⟨_ :: items, by rw [List.map_cons, hitems], hscan.take hslice⟩
    · -- no text is left behind a string that is not closed
      rw [hdrop, List.drop_nil, lexFrom] at hitems
      rw [hdrop, List.drop_nil, lexFrom]
      exact ⟨[_], rfl, Scan.take (.done .nil) hslice⟩
  | case5 offset c cs _ _ _ hc ih =>
    obtain ⟨items, hitems, hscan⟩ := ih
    have hskip : Scan offset ([c] ++ cs) items := hscan.skip (.blank hc)
    exact ⟨items, hitems, hskip⟩
  | case6 offset c cs hline hblock _ hc s hs ih =>
    obtain ⟨items, hitems, hscan⟩ := ih
    obtain rfl := Punctuation.ofChar?_eq_some_iff.1 hs
    have hslice : Slice (.symbol s) [s.char] cs := by
      refine .symbol ?_
      rintro rfl d hd
      obtain ⟨more, rfl⟩ := List.head?_eq_some_iff.1 hd
      refine ⟨?_, ?_⟩
      · rintro rfl
        exact hline more rfl rfl
      · rintro rfl
        exact hblock more rfl rfl
    exact ⟨_ :: items, by rw [List.map_cons, hitems], hscan.take hslice⟩
  | case7 offset c cs _ _ hquote hc hs word ih =>
    obtain ⟨items, hitems, hscan⟩ := ih
    have hslice := slice_word (by simpa using hc) hquote hs cs
    have htext : c :: cs = word ++ cs.dropWhile (!isSeparator ·) := by
      rw [List.cons_append, List.takeWhile_append_dropWhile]
    rw [htext]
    exact ⟨_ :: items, by rw [List.map_cons, hitems], hscan.take hslice⟩

/-! ## Offsets -/

/-- What stands between two byte offsets of a text, with what is before and behind it. Both are
offsets of whole characters. -/
def Between (text : List Char) (start stop : Nat)
    (P : List Char → List Char → List Char → Prop) : Prop :=
  ∃ before piece behind, text = before ++ (piece ++ behind) ∧ byteSize before = start ∧
    start + byteSize piece = stop ∧ P before piece behind

theorem Slice.exists_cons (h : Slice token slice behind) : ∃ c cs, slice = c :: cs := by
  cases h with
  | word hne _ _ _ => exact List.exists_cons_of_ne_nil hne
  | _ => exact ⟨_, _, rfl⟩

theorem Slice.byteSize_pos (h : Slice token slice behind) : 0 < byteSize slice := by
  obtain ⟨c, cs, rfl⟩ := h.exists_cons
  exact Nat.add_pos_left c.utf8Size_pos _

/-- Whether no word goes on from one text to the next. -/
def Apart (before behind : List Char) : Prop :=
  ∀ c ∈ before.getLast?, ∀ d ∈ behind.head?, isSeparator c ∨ isSeparator d

theorem Skipped.apart {before : List Char} (h : Skipped piece behind) :
    Apart (before ++ piece) behind := by
  intro c hc d hd
  cases h with
  | @blank b _ hb =>
    obtain rfl : b = c := by simpa using hc
    exact .inl (by simp [isSeparator, hb])
  | lineComment hbody hend => exact .inr (by rw [hend d hd]; decide)
  | @blockComment body _ hbody =>
    obtain rfl : '/' = c := by
      rw [← List.cons_append, ← List.cons_append, ← List.append_assoc, List.getLast?_append] at hc
      simpa using hc
    exact .inl (by decide)
  | openComment hbody => cases hd

theorem Gap.apart {before : List Char} (h : Gap gap behind) (hb : Apart before (gap ++ behind)) :
    Apart (before ++ gap) behind := by
  induction h generalizing before with
  | nil => simpa using hb
  | cons hpiece hgap ih =>
    rw [← List.append_assoc]
    exact ih hpiece.apart

theorem Slice.apart {before : List Char} (h : Slice token slice behind) :
    Apart (before ++ slice) behind := by
  intro c hc d hd
  cases h with
  | @symbol s _ hs =>
    obtain rfl : s.char = c := by simpa using hc
    have hsymbol : Punctuation.ofChar? s.char = some s := Punctuation.ofChar?_eq_some_iff.2 rfl
    exact .inl (by simp [isSeparator, hsymbol])
  | @string value _ hvalue =>
    obtain rfl : '"' = c := by
      rw [← List.cons_append, ← List.append_assoc, List.getLast?_append] at hc
      simpa using hc
    exact .inl (by decide)
  | openString hvalue => cases hd
  | word hne hplain hend ht => exact .inr (hend d hd)

/-- In a text that is cut, gaps and slices stand between the offsets. -/
theorem Scan.between (before : List Char) (h : Scan offset text items)
    (hoffset : byteSize before = offset) (hbefore : Apart before text) :
    (∀ g ∈ (offset :: items.map Prod.snd).zip
        (items.map (·.1.offset) ++ [byteSize (before ++ text)]),
      Between (before ++ text) g.1 g.2 fun _ => Gap) ∧
    ∀ i ∈ items, i.1.offset < i.2 ∧
      Between (before ++ text) i.1.offset i.2 fun before slice behind =>
        Slice i.1.token slice behind ∧ Apart before slice := by
  induction h generalizing before with
  | @done offset gap hgap =>
    refine ⟨List.forall_mem_singleton.2 ?_, nofun⟩
    refine ⟨before, gap, [], by rw [List.append_nil], hoffset, ?_, hgap⟩
    rw [byteSize_append, hoffset]
  | @token offset start stop gap slice rest token items hgap hstart hslice hstop hrest ih =>
    have hstart' : byteSize (before ++ gap) = start := by rw [byteSize_append, hoffset, hstart]
    have hstop' : byteSize (before ++ gap ++ slice) = stop := by
      rw [byteSize_append, hstart', hstop]
    have htext : before ++ (gap ++ (slice ++ rest)) = before ++ gap ++ slice ++ rest := by simp
    obtain ⟨hgaps, hslices⟩ := ih (before ++ gap ++ slice) hstop' hslice.apart
    rw [← htext] at hgaps hslices
    refine ⟨List.forall_mem_cons.2 ⟨?_, hgaps⟩, List.forall_mem_cons.2 ⟨⟨?_, ?_⟩, hslices⟩⟩
    · exact ⟨before, gap, slice ++ rest, rfl, hoffset, hstart.symm, hgap⟩
    · have hpos := hslice.byteSize_pos
      simp only
      omega
    · have hapart : Apart (before ++ gap) slice := by
        obtain ⟨c, cs, rfl⟩ := hslice.exists_cons
        exact hgap.apart hbefore
      exact ⟨before ++ gap, slice, rest, by simp, hstart', hstop.symm, hslice, hapart⟩

/-- **Nothing of a text is lost and no token is invented.** The tokens of a text have offsets
behind them, between which there are slices and gaps in turn, from the start of the text to its
end: each token is that of its slice, and in the gaps there are only blanks and comments. No
word starts or ends inside a run of word characters. -/
theorem lex_slices (source : String) : ∃ stops : List Nat,
    stops.length = (lex source).length ∧
      (∀ g ∈ (0 :: stops).zip ((lex source).map Lexeme.offset ++ [source.utf8ByteSize]),
        Between source.toList g.1 g.2 fun _ => Gap) ∧
      ∀ t ∈ (lex source).zip stops, t.1.offset < t.2 ∧
        Between source.toList t.1.offset t.2 fun before slice behind =>
          Slice t.1.token slice behind ∧ Apart before slice := by
  obtain ⟨items, hitems, hscan⟩ := scan_lexFrom 0 source.toList
  obtain ⟨hgaps, hslices⟩ := hscan.between [] rfl nofun
  have hlex : lex source = items.map Prod.fst := hitems.symm
  have hzip : (lex source).zip (items.map Prod.snd) = items := by
    rw [hlex, ← List.unzip_fst, ← List.unzip_snd, List.zip_unzip]
  refine ⟨items.map Prod.snd, by simp [hlex], ?_, by rwa [hzip]⟩
  rw [hlex, List.map_map, ← byteSize_toList]
  exact hgaps

/-- The second slash stands in the comment, and the last ones in a string that is not closed. -/
example : lex "a/*/b*/\"c//" = [⟨.identifier "a", 0⟩, ⟨.string "c//", 7⟩] := by decide +kernel

end JackToolchain.Jack
