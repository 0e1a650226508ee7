import JackToolchain.Proofs.Text.Position
import JackToolchain.Proofs.Vm.Lines

/-!
# The places of faults

A fault is about a word of its line, or about the end of the last word where one is missing. Its
offset counts one byte for the end of each line, so it is behind by the carriage returns that the
lines before it have lost.

* `IsFront`: what stands on a line before one of its words.
* `exists_front_of_getElem?`, `exists_front_of_getLast?`: where the fields of a line start and end.
* `Placed`: where the fault of a line lies, and the position that it has for readers.
* `placed_readText`: **a fault lies at the word that it is about, short of the carriage returns that
  were lost**, and its position is that of the word exactly if there are none.
-/

namespace JackToolchain.Vm

open Text Files

variable {c : Char} {cs code front rest : List Char} {field : TextField} {offset k : Nat} {l : Line}
  {r : Row} {cause : Cause} {source : Source} {item : Except Fault Instruction}

/-- What stands before the word at an index of a text. A missing word has what stands up to the end
of the last one. -/
inductive IsFront : List Char → Nat → List Char → Prop where
  | word {front rest : List Char} (hfront : ∀ c ∈ front.getLast?, isBlank c)
    (hrest : ∃ c ∈ rest.head?, isBlank c = false) :
    IsFront (front ++ rest) (wordsOf front).length front
  | missing {front blanks : List Char} (hfront : ∃ c ∈ front.getLast?, isBlank c = false)
    (hblanks : blanks.all isBlank) : IsFront (front ++ blanks) (wordsOf front).length front

theorem IsFront.isPrefix (h : IsFront cs k front) : front <+: cs := by
  cases h with
  | word => exact List.prefix_append _ _
  | missing => exact List.prefix_append _ _

/-! ## Where fields start and end -/

/-- A word in front of others is one word more. -/
theorem wordsOf_word_append (hc : isBlank c = false)
    (hcs : cs.dropWhile (!isBlank ·) = front ++ rest) :
    (wordsOf (c :: cs.takeWhile (!isBlank ·) ++ front)).length = (wordsOf front).length + 1 := by
  have hstop : ∀ d ∈ front.head?, isBlank d := by
    intro d hd
    refine isBlank_of_head?_dropWhile cs d ?_
    rw [hcs, List.head?_append, hd]
    rfl
  rw [wordsOf_append (List.cons_ne_nil _ _) (not_isBlank_of_mem_takeWhile hc cs) hstop]
  rfl

theorem cons_eq_word_append (c : Char) (hcs : cs.dropWhile (!isBlank ·) = front ++ rest) :
    c :: cs = (c :: cs.takeWhile (!isBlank ·) ++ front) ++ rest := by
  rw [List.append_assoc, ← hcs, List.cons_append, List.takeWhile_append_dropWhile]

/-- A field starts behind the words before it and a blank. -/
theorem exists_front_of_getElem? (offset : Nat) (cs : List Char) :
    ∀ k, ∀ field, (fields offset cs)[k]? = some field → ∃ front rest, cs = front ++ rest ∧
      (∀ c ∈ front.getLast?, isBlank c) ∧ (∃ c ∈ rest.head?, isBlank c = false) ∧
      (wordsOf front).length = k ∧ field.offset = offset + byteSize front := by
  fun_induction fields offset cs with
  | case1 offset =>
    intro k field h
    cases h
  | case2 offset c cs hc ih =>
    intro k field h
    obtain ⟨front, rest, rfl, hfront, hrest, rfl, hoffset⟩ := ih k field h
    refine ⟨c :: front, rest, rfl, ?_, hrest, ?_, ?_⟩
    · intro d hd
      rw [List.getLast?_cons] at hd
      cases hlast : front.getLast? with
      | none =>
        rw [hlast] at hd
        rwa [← Option.some.inj hd]
      | some e =>
        rw [hlast] at hd
        rw [← Option.some.inj hd]
        exact hfront e hlast
    · rw [wordsOf_blank hc]
    · rw [hoffset, byteSize_cons, Nat.add_assoc]
  | case3 offset c cs hc word ih =>
    intro k field h
    have hplain : isBlank c = false := by simpa using hc
    cases k with
    | zero =>
      obtain rfl := Option.some.inj h
      have hnil : ∀ d ∈ ([] : List Char).getLast?, isBlank d :=
        fun d hd => absurd hd (Option.not_mem_none d)
      exact ⟨[], c :: cs, rfl, hnil, ⟨c, rfl, hplain⟩, congrArg List.length wordsOf_nil, rfl⟩
    | succ k =>
      obtain ⟨front, rest, hcs, hfront, hrest, rfl, hoffset⟩ := ih k field h
      -- the word before the field ends at a blank
      have hne : front ≠ [] := by
        rintro rfl
        obtain ⟨d, hd, hd'⟩ := hrest
        rw [isBlank_of_head?_dropWhile cs d (hcs ▸ hd)] at hd'
        cases hd'
      refine ⟨word ++ front, rest, cons_eq_word_append c hcs, ?_, hrest, ?_, ?_⟩
      · rwa [List.getLast?_append_of_ne_nil _ hne]
      · exact wordsOf_word_append hplain hcs
      · rw [hoffset, byteSize_append, Nat.add_assoc]

/-- The last field ends where only blanks follow. -/
theorem exists_front_of_getLast? (offset : Nat) (cs : List Char) :
    ∀ field, (fields offset cs).getLast? = some field → ∃ front blanks, cs = front ++ blanks ∧
      (∃ c ∈ front.getLast?, isBlank c = false) ∧ blanks.all isBlank ∧
      (wordsOf front).length = (fields offset cs).length ∧
      field.stop = offset + byteSize front := by
  fun_induction fields offset cs with
  | case1 offset =>
    intro field h
    cases h
  | case2 offset c cs hc ih =>
    intro field h
    obtain ⟨front, blanks, rfl, ⟨d, hd, hd'⟩, hblanks, hlength, hstop⟩ := ih field h
    refine ⟨c :: front, blanks, rfl, ⟨d, ?_, hd'⟩, hblanks, ?_, ?_⟩
    · rw [List.getLast?_cons, hd]
      rfl
    · rw [wordsOf_blank hc, hlength]
    · rw [hstop, byteSize_cons, Nat.add_assoc]
  | case3 offset c cs hc word ih =>
    intro field h
    have hplain : isBlank c = false := by simpa using hc
    have hword := not_isBlank_of_mem_takeWhile hplain cs
    rw [List.getLast?_cons] at h
    cases hlast : (fields (offset + byteSize word) (cs.dropWhile (!isBlank ·))).getLast? with
    | none =>
      -- the word is the last one
      rw [hlast] at h
      obtain rfl := Option.some.inj h
      have hnone := List.getLast?_eq_none_iff.1 hlast
      have hblanks : (cs.dropWhile (!isBlank ·)).all isBlank := by
        rw [← wordsOf_eq_nil_iff, ← map_text_fields (offset + byteSize word), hnone]
        rfl
      refine ⟨word, cs.dropWhile (!isBlank ·), ?_, ?_, hblanks, ?_, ?_⟩
      · exact (congrArg (c :: ·) List.takeWhile_append_dropWhile).symm
      · exact ⟨word.getLast (List.cons_ne_nil _ _), List.getLast?_eq_getLast_of_ne_nil _,
          hword _ (List.getLast_mem _)⟩
      · have hnil : ∀ d ∈ ([] : List Char).head?, isBlank d :=
          fun d hd => absurd hd (Option.not_mem_none d)
        have hone : wordsOf (word ++ []) = String.ofList word :: wordsOf [] :=
          wordsOf_append (List.cons_ne_nil _ _) hword hnil
        rw [List.append_nil, wordsOf_nil] at hone
        rw [hnone, hone]
        rfl
      · simp [TextField.stop, ← byteSize_toList]
    | some last =>
      rw [hlast] at h
      obtain rfl := Option.some.inj h
      obtain ⟨front, blanks, hcs, hfront, hblanks, hlength, hstop⟩ := ih _ hlast
      have hne : front ≠ [] := by
        rintro rfl
        obtain ⟨d, hd, -⟩ := hfront
        cases hd
      refine ⟨word ++ front, blanks, cons_eq_word_append c hcs, ?_, hblanks, ?_, ?_⟩
      · rwa [List.getLast?_append_of_ne_nil _ hne]
      · rw [wordsOf_word_append hplain hcs, hlength]
        rfl
      · rw [Option.getD_some, hstop, byteSize_append, Nat.add_assoc]

/-! ## Where faults lie -/

/-- A flaw is about a word, or about the first one that is missing. -/
theorem Flaw.le_length {words : List String} (h : Flaw words cause k) : k ≤ words.length := by
  cases h with
  | unknownCommand => exact Nat.zero_le _
  | operand hform hflaw =>
    refine Nat.succ_le_succ ?_
    cases hflaw <;> simp

/-- The place of a flaw is behind what stands before its word. -/
theorem exists_front_of_flaw (hfields : fields offset cs = r.command :: r.operands)
    (hflaw : Flaw r.words cause k) :
    ∃ front, IsFront cs k front ∧ r.place k = offset + byteSize front := by
  have hlength : r.words.length = (fields offset cs).length := by
    rw [hfields, Row.words]
    simp
  unfold Row.place
  rw [← hfields]
  cases hk : (fields offset cs)[k]? with
  | some field =>
    obtain ⟨front, rest, rfl, hfront, hrest, rfl, hoffset⟩ :=
      exists_front_of_getElem? offset cs _ _ hk
    exact ⟨front, .word hfront hrest, hoffset⟩
  | none =>
    have hlast : (fields offset cs).getLast? = some (r.operands.getLast?.getD r.command) := by
      rw [hfields, List.getLast?_cons]
    obtain ⟨front, blanks, hcs, hfront, hblanks, hwords, hstop⟩ :=
      exists_front_of_getLast? offset cs _ hlast
    have hend : k = (wordsOf front).length := by
      have hle := hflaw.le_length
      have hge := List.getElem?_eq_none_iff.1 hk
      omega
    refine ⟨front, ?_, hstop⟩
    rw [hcs, hend]
    exact .missing hfront hblanks

/-- Where the fault of a line lies. The word that it is about starts behind `front`. The offset is
short by the carriage returns that the lines before it have lost, so the position is that of the
word exactly if there are none. The position of the word is on its line. -/
def Placed (source : Source) (l : Line) (item : Except Fault Instruction) : Prop :=
  ∀ fault, item = .error fault → ∃ k front, Flaw (wordsOf l.code) fault.cause k ∧
    IsFront l.code k front ∧
    fault.offset + l.returns = byteSize (l.textBefore ++ front) ∧
    (fault.position source = Position.at source.content (byteSize (l.textBefore ++ front)) ↔
      l.returns = 0) ∧
    Position.at source.content (byteSize (l.textBefore ++ front)) =
      ⟨l.number, front.length, String.ofList (dropWhileEnd (· == '\r') l.text)⟩

theorem placed_of_itemOf (hl : l ∈ linesIn source.content.toList) (h : ItemOf l item) :
    Placed source l item := by
  obtain ⟨offset, r, hoffset, hfields, rfl⟩ := h
  intro fault hfault
  obtain ⟨k, hflaw, hplace⟩ := r.read_eq_error_iff.1 hfault
  obtain ⟨front, hfront, hbehind⟩ := exists_front_of_flaw hfields hflaw
  have htrue : fault.offset + l.returns = byteSize (l.textBefore ++ front) := by
    have hstart : l.start = byteSize l.textBefore := rfl
    rw [byteSize_append, hplace, hbehind]
    omega
  obtain ⟨rest, hline⟩ := hfront.isPrefix.trans (beforeComment_isPrefix l.text)
  obtain ⟨⟨after, hcontent, -⟩, -⟩ := eq_lines_of_mem_linesIn hl
  refine ⟨k, front, words_of_fields hfields ▸ hflaw, hfront, htrue, ?_, ?_⟩
  · rw [Fault.position, ← htrue]
    constructor
    · intro hsame
      by_contra hreturns
      have hcut : source.content.toList = (l.textBefore ++ front) ++ (rest ++ after) := by
        rw [hcontent, ← hline]
        simp
      have hlt : fault.offset < byteSize (l.textBefore ++ front) := by omega
      exact Position.at_ne hcut hlt (htrue ▸ hsame)
    · intro hreturns
      rw [hreturns, Nat.add_zero]
  · exact Position.at_line hl hline.symm

/-- **Faults lie at the words that they are about**, short of the carriage returns that the lines
before them have lost. A text without two carriage returns before a line feed loses none, so all
its faults have the positions of their words. -/
theorem placed_readText {name text : String} (hsource : Source.ofText? name text = some source) :
    List.Forall₂ (Placed source)
      ((linesIn source.content.toList).filter fun l => !l.code.all isBlank)
      (readText source.content) ∧
    (¬ ['\r', '\r', '\n'] <:+: text.toList →
      ∀ l ∈ linesIn source.content.toList, l.returns = 0) := by
  constructor
  · refine List.forall₂_iff_get.2 ?_
    obtain ⟨hlength, hitems⟩ := List.forall₂_iff_get.1 (items_readText source.content)
    refine ⟨hlength, fun i hi hi' => ?_⟩
    have hmem := List.get_mem ((linesIn source.content.toList).filter _) ⟨i, hi⟩
    exact placed_of_itemOf (List.mem_of_mem_filter hmem) (hitems i hi hi')
  · obtain ⟨stem, -, rfl⟩ := Option.map_eq_some_iff.1 hsource
    intro hpair l hl
    rw [String.toList_ofList] at hl
    exact returns_eq_zero hpair hl

/-- A line that loses a carriage return has its faults in place, and the next one has not. -/
theorem placed_readText_return :
    ∃ source, Source.ofText? "Main.vm" "push heap 1\r\r\n pop local" = some source ∧
      (List.Forall₂ (Placed source)
        ((linesIn source.content.toList).filter fun l => !l.code.all isBlank)
        (readText source.content) ∧
      (¬ ['\r', '\r', '\n'] <:+: "push heap 1\r\r\n pop local".toList →
        ∀ l ∈ linesIn source.content.toList, l.returns = 0)) ∧
      readText source.content = [.error ⟨.unknownSegment "heap", 5⟩, .error ⟨.missing .index, 22⟩] ∧
      (linesIn source.content.toList).map Line.returns = [0, 1] := by
  obtain ⟨source, hsource⟩ : ∃ source,
      Source.ofText? "Main.vm" "push heap 1\r\r\n pop local" = some source := ⟨_, rfl⟩
  have hread : readText source.content =
      [.error ⟨.unknownSegment "heap", 5⟩, .error ⟨.missing .index, 22⟩] := by
    obtain rfl := Option.some.inj hsource
    decide +kernel
  have hreturns : (linesIn source.content.toList).map Line.returns = [0, 1] := by
    obtain rfl := Option.some.inj hsource
    decide +kernel
  exact ⟨source, hsource, placed_readText hsource, hread, hreturns⟩

/-- A fault behind a lost carriage return is said to be on the line before its own. -/
theorem misplaced_fault :
    ∃ source fault, Source.ofText? "Main.vm" "\r\r\nfrobnicate\n" = some source ∧
      source.content.toList = ['\r', '\n'] ++ "frobnicate\n".toList ∧
      readText source.content = [.error fault] ∧ fault.cause = .unknownCommand "frobnicate" ∧
      fault.position source = ⟨1, 1, ""⟩ ∧
      Position.at source.content (byteSize ['\r', '\n']) = ⟨2, 0, "frobnicate"⟩ := by
  refine ⟨⟨"Main.vm", "Main", "\r\nfrobnicate\n"⟩, ⟨.unknownCommand "frobnicate", 1⟩, ?_⟩
  decide +kernel

end JackToolchain.Vm
