import JackToolchain.Jack.Program
import JackToolchain.Proofs.Jack.Blocks
import JackToolchain.Proofs.Jack.Rules
import JackToolchain.Proofs.Outcome

/-!
# Which classes are accepted

* `isSome_classTree?_iff`: a class means something exactly if it keeps the rules.
* `compile_accepts_iff`: **a file is accepted exactly if its tokens spell a class that keeps
  the rules**.
-/

namespace JackToolchain.Jack

open Grammar Vm Files

variable {className : String} {scope : Scope} {s : Sub} {h : Header} {kind : Kind}

/-! ## What a subroutine declares -/

theorem eq_local_of_localKind? {k : Keyword} (hk : localKind? k = some kind) : kind = .local := by
  cases k <;> cases hk
  rfl

theorem isClassLevel_of_classKind? {k : Keyword} (hk : classKind? k = some kind) :
    kind.isClassLevel := by
  cases k <;> cases hk <;> rfl

theorem isClassLevel_of_mem_entries (s : Sub) {e : VarEntry} (he : e ∈ s.entries className) :
    e.kind.isClassLevel = Kind.isClassLevel .local := by
  rw [Sub.entries, List.mem_append, List.mem_append] at he
  rcases he with (he | he) | he
  · rw [eq_of_mem_objectEntries he]
    rfl
  · obtain ⟨p, -, rfl⟩ := List.mem_map.1 he
    rfl
  · obtain ⟨d, -, he⟩ := List.mem_flatMap.1 he
    obtain ⟨name, -, rfl⟩ := List.mem_map.1 he
    rw [eq_local_of_localKind? d.starts]

theorem map_name_entries {kindOf? : Keyword → Option Kind} (ds : List (VarDec kindOf?)) :
    (ds.flatMap VarDec.entries).map VarEntry.name = ds.flatMap VarDec.names := by
  induction ds with
  | nil => rfl
  | cons d ds ih =>
    rw [List.flatMap_cons, List.map_append, ih, VarDec.entries, List.map_map, List.flatMap_cons]
    exact congrArg (· ++ _) (List.map_id' _)

theorem map_name_subEntries (s : Sub) : (s.entries className).map VarEntry.name =
    (objectEntries className s.kind).map VarEntry.name ++ s.names := by
  rw [Sub.entries, List.map_append, List.map_append, map_name_entries, List.map_map, Sub.names,
    List.append_assoc]
  rfl

/-- The object of a method has no name that a program can write. -/
theorem names_objectEntries {name : String} (hn : name ≠ "this") (kind : SubroutineKind) :
    name ∉ (objectEntries className kind).map VarEntry.name := by
  cases kind <;> simp [objectEntries, hn]

/-- The declarations of a subroutine mean something if no name is declared twice. -/
theorem isSome_header?_iff (hthis : "this" ∉ s.names) :
    (s.header? className scope).isSome ↔ s.names.Nodup := by
  have hempty : scope.leaveSubroutine.names .local = [] := rfl
  have hdeclared : (declared? scope.leaveSubroutine (s.entries className)).isSome ↔
      ((objectEntries className s.kind).map VarEntry.name ++ s.names).Nodup := by
    rw [declared?_isSome_iff (fun e he => isClassLevel_of_mem_entries s he)
      (by rw [hempty]; exact List.nodup_nil), hempty, List.nil_append, map_name_subEntries]
  have hobject : ((objectEntries className s.kind).map VarEntry.name ++ s.names).Nodup ↔
      s.names.Nodup := by
    cases s.kind <;> simp [objectEntries, hthis]
  rw [← hobject, ← hdeclared, Sub.header?]
  cases declared? scope.leaveSubroutine (s.entries className) <;> simp

/-- The names in reach of the statements of a subroutine. -/
theorem isSome_find?_header (hh : s.header? className scope = some h) {name : String}
    (hn : name ≠ "this") :
    (h.scope.find? name).isSome ↔ name ∈ s.names ∨ name ∈ scope.names .static := by
  obtain ⟨scope', hscope, rfl⟩ := header?_eq_some_iff.1 hh
  have hentries : ∀ e ∈ s.entries className, e.kind.isClassLevel = Kind.isClassLevel .local :=
    fun e he => isClassLevel_of_mem_entries s he
  have hlocal := names_declared? hentries hscope
  have hstatic : scope'.level .static = scope.leaveSubroutine.level .static :=
    level_declared?_of_ne hentries (by decide) hscope
  have hclass : scope'.names .static = scope.names .static := by
    rw [Scope.names, hstatic]
    rfl
  have hempty : scope.leaveSubroutine.names .local = [] := rfl
  rw [Scope.find?_isSome_iff, hlocal, hclass, hempty, List.nil_append, map_name_subEntries,
    List.mem_append]
  simp only [names_objectEntries hn, false_or]

/-! ## The rules are kept where a class means something -/

theorem mem_tokens_of_names {kindOf? : Keyword → Option Kind} {ds : List (VarDec kindOf?)}
    {name : String} (hn : name ∈ ds.flatMap VarDec.names) :
    .identifier name ∈ ds.flatMap VarDec.tokens := by
  obtain ⟨d, hd, hn⟩ := List.mem_flatMap.1 hn
  refine List.mem_flatMap.2 ⟨d, hd, ?_⟩
  have hname : Token.identifier name ∈ commaSeparated (fun name => [.identifier name]) d.names :=
    mem_commaSeparated hn (List.mem_singleton_self _)
  simp [VarDec.tokens, hname]

/-- A name that a subroutine declares stands in its tokens. -/
theorem mem_tokens_of_subNames {name : String} (hn : name ∈ s.names) :
    .identifier name ∈ s.tokens := by
  rcases List.mem_append.1 hn with hn | hn
  · obtain ⟨p, hp, rfl⟩ := List.mem_map.1 hn
    have hname : Token.identifier p.name ∈ commaSeparated Parameter.tokens s.parameters :=
      mem_commaSeparated hp (by simp [Parameter.tokens])
    simp [Sub.tokens, hname]
  · have hname := mem_tokens_of_names hn
    rw [Sub.tokens, braced]
    simp only [List.mem_cons, List.mem_append, hname, true_or, or_true]

/-- A subroutine whose declarations mean something keeps the rules if they meet the needs of
its statements. -/
theorem legal_iff_met (hh : s.header? className scope = some h)
    (hthis : ∀ name, .identifier name ∈ s.tokens → name ≠ "this") :
    s.Legal (scope.names .static) ↔ ∀ n ∈ statementsNeeds s.body, n.MetIn h := by
  have hnames : "this" ∉ s.names := fun hmem => hthis "this" (mem_tokens_of_subNames hmem) rfl
  have hheader : (s.header? className scope).isSome ↔ s.names.Nodup := isSome_header?_iff hnames
  have hnodup : s.names.Nodup := hheader.1 (by rw [hh]; rfl)
  have hfind (name : String) (hn : .variable name ∈ statementsNeeds s.body) :
      (h.scope.find? name).isSome ↔ name ∈ s.names ∨ name ∈ scope.names .static := by
    refine isSome_find?_header hh (hthis name ?_)
    have hspelled := mem_tokens_of_statementsNeeds s.body hn
    simp [Sub.tokens, braced, hspelled]
  have hkind : h.kind = s.kind ∧ h.isVoid = s.result.isNone := by
    obtain ⟨scope', -, rfl⟩ := header?_eq_some_iff.1 hh
    exact ⟨rfl, rfl⟩
  constructor
  · intro hl n hn
    cases n with
    | «variable» name => exact (hfind name hn).2 (hl.declared name hn)
    | object =>
      have hobject := hl.object hn
      simpa [Need.MetIn, Header.hasObject, hkind.1] using hobject
    | result =>
      have hresult := hl.result hn
      simpa [Need.MetIn, hkind.2] using hresult
    | string value => exact hl.strings value hn
  · intro hmet
    refine ⟨hnodup, ?_, ?_, ?_, ?_⟩
    · intro name hn
      exact (hfind name hn).1 (hmet _ hn)
    · intro hn
      have hobject : h.hasObject := hmet _ hn
      simpa [Header.hasObject, hkind.1] using hobject
    · intro hn
      have hresult : ¬ h.isVoid := hmet _ hn
      simpa [hkind.2] using hresult
    · intro value hn
      exact hmet _ hn

/-- A subroutine means something exactly if it keeps the rules. -/
theorem isSome_subTree?_iff (hthis : ∀ name, .identifier name ∈ s.tokens → name ≠ "this") :
    (s.tree? className scope).isSome ↔ s.Legal (scope.names .static) := by
  have hnames : "this" ∉ s.names := fun hmem => hthis "this" (mem_tokens_of_subNames hmem) rfl
  cases hh : s.header? className scope with
  | none =>
    have hheader : (s.header? className scope).isSome ↔ s.names.Nodup := isSome_header?_iff hnames
    have hnodup : ¬ s.names.Nodup := by
      rw [← hheader, hh]
      exact Bool.false_ne_true
    rw [Sub.tree?, hh]
    exact iff_of_false Bool.false_ne_true fun hl => hnodup hl.names
  | some h =>
    rw [legal_iff_met hh hthis, ← isSome_statementsTree?_iff, Sub.tree?, hh]
    cases hb : statementsTree? h s.body <;> simp [hb]

theorem isSome_subroutinesTree?_iff {ss : List Sub}
    (hthis : ∀ s ∈ ss, ∀ name, .identifier name ∈ s.tokens → name ≠ "this") :
    (subroutinesTree? className scope ss).isSome ↔ ∀ s ∈ ss, s.Legal (scope.names .static) := by
  rw [isSome_subroutinesTree?]
  exact forall₂_congr fun s hs => isSome_subTree?_iff (hthis s hs)

theorem isClassLevel_of_mem_classEntries (c : Cls) {e : VarEntry}
    (he : e ∈ c.declarations.flatMap VarDec.entries) :
    e.kind.isClassLevel = Kind.isClassLevel .static := by
  obtain ⟨d, -, he⟩ := List.mem_flatMap.1 he
  obtain ⟨name, -, rfl⟩ := List.mem_map.1 he
  exact isClassLevel_of_classKind? d.starts

/-- The variables of a class mean something if no name is declared twice. -/
theorem isSome_scope?_iff (c : Cls) : c.scope?.isSome ↔ c.names.Nodup := by
  have hempty : Scope.names {} .static = [] := rfl
  rw [Cls.scope?, declared?_isSome_iff (fun e he => isClassLevel_of_mem_classEntries c he)
    (by rw [hempty]; exact List.nodup_nil), hempty, List.nil_append, map_name_entries, Cls.names]

theorem names_scope? {c : Cls} (hc : c.scope? = some scope) :
    scope.names .static = c.names := by
  have h := names_declared? (fun e he => isClassLevel_of_mem_classEntries c he) hc
  rwa [map_name_entries] at h

/-- A class means something exactly if it keeps the rules. -/
theorem isSome_classTree?_iff {c : Cls}
    (hthis : ∀ name, .identifier name ∈ c.tokens → name ≠ "this") :
    c.tree?.isSome ↔ c.Legal := by
  have hsubroutines : ∀ s ∈ c.subroutines, ∀ name, .identifier name ∈ s.tokens →
      name ≠ "this" := by
    intro s hs name hn
    refine hthis name ?_
    have hspelled : Token.identifier name ∈ c.subroutines.flatMap Sub.tokens :=
      List.mem_flatMap.2 ⟨s, hs, hn⟩
    rw [Cls.tokens, braced]
    simp only [List.mem_cons, List.mem_append, hspelled, true_or, or_true]
  have hscope := isSome_scope?_iff c
  rw [Cls.tree?]
  cases hc : c.scope? with
  | none =>
    rw [hc] at hscope
    exact iff_of_false nofun fun hl => absurd (hscope.2 hl.names) nofun
  | some scope =>
    rw [hc] at hscope
    have htrees : (subroutinesTree? c.name scope c.subroutines).isSome ↔
        ∀ s ∈ c.subroutines, s.Legal c.names := by
      rw [isSome_subroutinesTree?_iff hsubroutines, names_scope? hc]
    constructor
    · intro hsome
      refine ⟨hscope.1 rfl, htrees.1 ?_⟩
      cases ht : subroutinesTree? c.name scope c.subroutines with
      | none => simp [ht] at hsome
      | some subroutines => rfl
    · intro hl
      obtain ⟨subroutines, ht⟩ := Option.isSome_iff_exists.1 (htrees.2 hl.subroutines)
      simp [ht]

/-- **A file is accepted exactly if its tokens spell a class that keeps the rules.** -/
theorem compile_accepts_iff (source : Source) :
    (∃ c : Cls, c.tokens = (lex source.content).map Lexeme.token ∧ c.Legal) ↔
      ∃ p, compile source = .ok p := by
  have hread {d : ClassDecl} : (readClass (lex source.content)).outcome = .ok d ↔
      ∃ c : Cls, (lex source.content).map Lexeme.token = c.tokens ∧ c.tree? = some d :=
    toOption_eq_some_iff.symm.trans class?_eq_some_iff
  -- no identifier of a source text is a keyword
  have hthis {c : Cls} (hl : (lex source.content).map Lexeme.token = c.tokens) (name : String)
      (hn : .identifier name ∈ c.tokens) : name ≠ "this" := by
    have hword : (Token.identifier name).IsWord := isWord_of_mem_lex (hl ▸ hn)
    rintro rfl
    exact absurd hword.not_keyword (by decide)
  constructor
  · rintro ⟨c, hl, hlegal⟩
    obtain ⟨d, hd⟩ := Option.isSome_iff_exists.1 ((isSome_classTree?_iff (hthis hl.symm)).2 hlegal)
    exact ⟨_, ofTokens_eq_ok_iff.2 ⟨d, hread.2 ⟨c, hl.symm, hd⟩, rfl⟩⟩
  · rintro ⟨p, hp⟩
    obtain ⟨d, hd, -⟩ := ofTokens_eq_ok_iff.1 hp
    obtain ⟨c, hl, hc⟩ := hread.1 hd
    exact ⟨c, hl.symm, (isSome_classTree?_iff (hthis hl)).1 (by rw [hc]; rfl)⟩

end JackToolchain.Jack
