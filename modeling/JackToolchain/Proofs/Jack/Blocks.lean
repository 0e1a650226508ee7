import JackToolchain.Proofs.Jack.Derivation.Class
import JackToolchain.Proofs.Jack.Emission

/-!
# The subroutines of a source text

* `Subroutine.Frames`: the instructions around the statements of a subroutine.
* `Subroutine.Emitted`: what is known of a subroutine that was read, and of its code.
* `emitted_of_class?`: **every subroutine that is read from a source text is such a one**.
* `Subroutine.Emitted.isEncodable`: every number in its code can be written.
-/

namespace JackToolchain.Jack

open Grammar Vm

variable {className : String} {scope : Scope} {kindOf? : Keyword → Option Kind}

/-! ## Names in declarations -/

theorem plain_text (t : TypeName) (ht : t.token.IsWord) : IsPlain t.text := by
  cases t with
  | named name => exact IsName.toIsPlain ht
  | _ => exact .of_all (by decide)

theorem plain_entries {ds : List (VarDec kindOf?)} (hw : Words (ds.flatMap VarDec.tokens))
    {e : VarEntry} (he : e ∈ ds.flatMap VarDec.entries) : IsPlain e.type := by
  obtain ⟨d, hd, he⟩ := List.mem_flatMap.1 he
  obtain ⟨name, -, rfl⟩ := List.mem_map.1 he
  have htype : d.type.token ∈ d.tokens := by simp [VarDec.tokens]
  exact plain_text d.type (hw _ (List.mem_flatMap.2 ⟨d, hd, htype⟩))

theorem Grammar.Sub.words_parameters {s : Sub} (hw : Words s.tokens) :
    Words (commaSeparated Parameter.tokens s.parameters) :=
  hw.tail.tail.tail.tail.left

theorem Grammar.Sub.words_declarations {s : Sub} (hw : Words s.tokens) :
    Words (s.declarations.flatMap VarDec.tokens) :=
  hw.tail.tail.tail.tail.right.tail.tail.left.left

theorem Grammar.Sub.words_body {s : Sub} (hw : Words s.tokens) :
    Words (statementsTokens s.body) :=
  hw.tail.tail.tail.tail.right.tail.tail.left.right

theorem plain_subEntries {s : Sub} (hclass : IsPlain className) (hw : Words s.tokens)
    {e : VarEntry} (he : e ∈ s.entries className) : IsPlain e.type := by
  rw [Sub.entries, List.mem_append, List.mem_append] at he
  rcases he with (he | he) | he
  · rw [eq_of_mem_objectEntries he]
    exact hclass
  · obtain ⟨p, hp, rfl⟩ := List.mem_map.1 he
    have htype : p.type.token ∈ commaSeparated Parameter.tokens s.parameters :=
      mem_commaSeparated hp List.mem_cons_self
    exact plain_text p.type (Sub.words_parameters hw _ htype)
  · exact plain_entries (Sub.words_declarations hw) he

/-! ## Subroutines -/

/-- A subroutine with numbered variables, whose names can be written. -/
structure Subroutine.Emitted (s : Subroutine) : Prop where
  plain : s.toHeader.Plain
  name : IsPlain s.name
  numbered : s.scope.Numbered
  body : ∀ i ∈ (statementsCode s.className {} s.body).1, Emits s.toHeader i

/-- The instructions before and behind the statements of a subroutine. -/
inductive Subroutine.Frames (s : Subroutine) : Instruction → Prop where
  | function : s.Frames (.function s.qualifiedName (s.scope.count .local).toNat)
  | fields : s.Frames (.push .constant (s.scope.count .field).toNat)
  | allocate : s.Frames (.call "Memory.alloc" 1)
  | object : s.Frames (.push .argument 0)
  | this : s.Frames (.pop .pointer 0)
  | zero : s.Frames (.push .constant 0)
  | «return» : s.Frames .return

theorem Subroutine.mem_code {s : Subroutine} {i : Instruction} (hi : i ∈ s.code) :
    s.Frames i ∨ i ∈ (statementsCode s.className {} s.body).1 := by
  rw [Subroutine.code, List.mem_append, List.mem_append, List.mem_append] at hi
  rcases hi with ((hi | hi) | hi) | hi
  · obtain rfl := List.mem_singleton.1 hi
    exact .inl .function
  · unfold Header.prologue at hi
    split at hi
    · simp only [List.mem_cons, List.not_mem_nil, or_false] at hi
      rcases hi with rfl | rfl | rfl
      · exact .inl .fields
      · exact .inl .allocate
      · exact .inl .this
    · simp only [List.mem_cons, List.not_mem_nil, or_false] at hi
      rcases hi with rfl | rfl
      · exact .inl .object
      · exact .inl .this
    · cases hi
  · exact .inr hi
  · unfold Subroutine.epilogue at hi
    split at hi
    · cases hi
    · simp only [List.mem_cons, List.not_mem_nil, or_false] at hi
      rcases hi with rfl | rfl
      · exact .inl .zero
      · exact .inl .return

theorem emitted_of_subTree? {s : Sub} {sub : Subroutine} (hclass : IsPlain className)
    (hnumbered : scope.Numbered) (htypes : ∀ v ∈ scope.inReach, IsPlain v.type)
    (hw : Words s.tokens) (hs : s.tree? className scope = some sub) : sub.Emitted := by
  obtain ⟨header, hheader, body, hbody, rfl⟩ := subTree?_eq_some_iff.1 hs
  obtain ⟨scope', hscope, rfl⟩ := header?_eq_some_iff.1 hheader
  -- a variable in reach is one of the class or is declared by the subroutine
  have hplain : ∀ v ∈ scope'.inReach, IsPlain v.type := by
    intro v hv
    rcases mem_inReach_declared? hscope hv with hv | ⟨e, he, heq⟩
    · refine htypes v ?_
      simp only [Scope.inReach, Scope.leaveSubroutine, List.append_nil] at hv
      exact List.mem_append_left _ hv
    · rw [heq]
      exact plain_subEntries hclass hw he
  refine ⟨⟨hclass, hplain⟩, hw.tail.tail.head.toIsPlain, hnumbered.leaveSubroutine.declared hscope,
    ?_⟩
  exact emits_statements ⟨hclass, hplain⟩ s.body hbody (Sub.words_body hw) {}

theorem mem_subroutinesTree? {ss : List Sub} {subs : List Subroutine} {sub : Subroutine}
    (hs : subroutinesTree? className scope ss = some subs) (hsub : sub ∈ subs) :
    ∃ s ∈ ss, s.tree? className scope = some sub := by
  induction ss generalizing subs with
  | nil =>
    cases hs
    cases hsub
  | cons s ss ih =>
    obtain ⟨first, hfirst, hrest⟩ := Option.bind_eq_some_iff.1 hs
    obtain ⟨others, hothers, heq⟩ := Option.bind_eq_some_iff.1 hrest
    cases heq
    rcases List.mem_cons.1 hsub with rfl | hsub
    · exact ⟨s, List.mem_cons_self, hfirst⟩
    · obtain ⟨s', hs', hsub⟩ := ih hothers hsub
      exact ⟨s', List.mem_cons_of_mem _ hs', hsub⟩

/-- A subroutine that means something in a class of words is emitted. -/
theorem emitted_of_mem_subroutines {c : Cls} {s : Sub} {sub : Subroutine} (hw : Words c.tokens)
    (hscope : c.scope? = some scope) (hs : s ∈ c.subroutines)
    (hsub : s.tree? c.name scope = some sub) : sub.Emitted := by
  have hclass : IsPlain c.name := hw.tail.head.toIsPlain
  have hinside := hw.tail.tail.tail.left
  have hnumbered : scope.Numbered := Scope.numbered_empty.declared hscope
  have htypes : ∀ v ∈ scope.inReach, IsPlain v.type := by
    intro v hv
    rcases mem_inReach_declared? hscope hv with hv | ⟨e, he, heq⟩
    · cases hv
    · rw [heq]
      exact plain_entries hinside.left he
  have hwords : Words s.tokens :=
    fun t ht => hinside.right t (List.mem_flatMap.2 ⟨s, hs, ht⟩)
  exact emitted_of_subTree? hclass hnumbered htypes hwords hsub

theorem words_of_lex {c : Cls} {source : String}
    (hl : (lex source).map Lexeme.token = c.tokens) : Words c.tokens := by
  rw [← hl]
  exact fun _ => isWord_of_mem_lex

/-- **Every subroutine that is read from a source text** has names that can be written and
numbered variables. -/
theorem emitted_of_class? {source : String} {d : ClassDecl} (hd : class? (lex source) = some d) :
    ∀ s ∈ d.subroutines, s.Emitted := by
  obtain ⟨c, hl, hc⟩ := class?_eq_some_iff.1 hd
  obtain ⟨scope, hscope, hrest⟩ := Option.bind_eq_some_iff.1 hc
  obtain ⟨subs, hsubs, heq⟩ := Option.bind_eq_some_iff.1 hrest
  cases heq
  intro sub hsub
  obtain ⟨s, hs, hsub⟩ := mem_subroutinesTree? hsubs hsub
  exact emitted_of_mem_subroutines (words_of_lex hl) hscope hs hsub

/-! ## Numbers -/

theorem Emits.number_le {h : Header} {i : Instruction} (hi : Emits h i) {n : Nat}
    (hn : i.number? = some n) : n ≤ maxNumber := by
  have hconstant : maxConstant ≤ maxNumber := by decide
  cases hi with
  | constant hm =>
    cases hn
    exact Nat.le_trans hm hconstant
  | scratch hi =>
    have hsmall : ∀ i ∈ scratchAccesses, i.number?.getD 0 ≤ maxNumber := by decide
    have hle := hsmall i hi
    rwa [hn, Option.getD_some] at hle
  | load | store =>
    cases hn
    exact toNat_le_maxNumber _
  | library hc =>
    cases hn
    have hsmall : ∀ c ∈ libraryCalls, c.2 ≤ maxNumber := by decide
    exact hsmall _ hc
  | call ht hm hmax =>
    cases hn
    exact hmax
  | _ => cases hn

/-- Every number in the code of a subroutine can be written. -/
theorem Subroutine.Emitted.isEncodable {s : Subroutine} (hs : s.Emitted) {i : Instruction}
    (hi : i ∈ s.code) : i.IsEncodable := by
  intro n hn
  rcases mem_code hi with hframe | hi
  · cases hframe with
    | function | fields =>
      cases hn
      exact toNat_le_maxNumber _
    | allocate =>
      cases hn
      decide
    | «return» => cases hn
    | _ =>
      cases hn
      exact Nat.zero_le _
  · exact (hs.body i hi).number_le hn

end JackToolchain.Jack
