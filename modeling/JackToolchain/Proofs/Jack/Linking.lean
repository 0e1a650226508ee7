import JackToolchain.Proofs.Hack.Labels
import JackToolchain.Proofs.Jack.Balance
import JackToolchain.Proofs.Jack.Independence
import JackToolchain.Proofs.Jack.Output

/-!
# Classes in one program

In the name of a function a period separates the class from the subroutine, and in a branch
label the last dollar sign separates the function from the label of a conditional or a loop.
Neither occurs in what stands before the one or behind the other. A subroutine can have a
dollar sign in its name, though, and a stem a period.

* `Compiled`: the functions and the branch labels of files that hold compiled subroutines.
* `Compiled.nodup_labels_iff`: which labels of such files can be merged.
* `nodup_linked_labels`: with ordinary names, labels are unambiguous if each class declares its
  subroutines once.
* `linked_labels_iff`: **classes that compile make a program without merged labels exactly if
  no class declares a subroutine twice and no function is named like a branch label or the
  label of a comparison**.
-/

namespace JackToolchain.Jack

open Text Vm Hack Grammar Files

/-! ## The names of a subroutine -/

theorem IsPlain.no_period {text : String} (h : IsPlain text) : '.' ∉ text.toList :=
  fun hmem => absurd (h.plain '.' hmem) (by decide)

/-- The class and the subroutine are read back from the name of a function. -/
theorem qualifiedName_inj {type type' name name' : String} (ht : IsPlain type)
    (ht' : IsPlain type') (h : qualifiedName type name = qualifiedName type' name') :
    type = type' ∧ name = name' := by
  have hlist := congrArg String.toList h
  rw [toList_qualifiedName, toList_qualifiedName] at hlist
  obtain ⟨htype, hname⟩ := append_cons_inj_left ht.no_period ht'.no_period hlist
  exact ⟨String.toList_inj.1 htype, String.toList_inj.1 hname⟩

theorem period_mem_qualifiedName (type name : String) :
    '.' ∈ (qualifiedName type name).toList := by
  rw [toList_qualifiedName]
  exact List.mem_append_right _ List.mem_cons_self

theorem Mark.dollar_not_mem_label (k : Mark) (n : Nat) : '$' ∉ (k.label n).toList := by
  have htext : '$' ∉ k.text.toList := by cases k <;> decide
  rw [Mark.label, String.toList_append, List.mem_append]
  exact not_or.2 ⟨htext, not_mem_toString (by decide) n⟩

/-- A function and the label of a conditional or a loop in it are read back from the branch
label. -/
theorem qualified_label_inj {scope scope' label label' : String} (hl : '$' ∉ label.toList)
    (hl' : '$' ∉ label'.toList) (h : qualified scope label = qualified scope' label') :
    scope = scope' ∧ label = label' := by
  have hlist := congrArg String.toList h
  rw [toList_qualified, toList_qualified] at hlist
  obtain ⟨hscope, hlabel⟩ := append_cons_inj_right hl hl' hlist
  exact ⟨String.toList_inj.1 hscope, String.toList_inj.1 hlabel⟩

/-- The names of a subroutine are words of a source text, and its own is no number. -/
structure Subroutine.Named (s : Subroutine) : Prop where
  className : IsPlain s.className
  name : IsPlain s.name
  not_number : ∀ n ≤ maxConstant, s.name ≠ toString n

/-- A class that compiles is the code of its subroutines, all of them named by it. -/
theorem exists_subroutines {source : Source} {p : Program} (hp : compile source = .ok p) :
    ∃ subs : List Subroutine, p.instructions = subs.flatMap Subroutine.code ∧
      ∀ s ∈ subs, s.Named ∧ s.className = p.className := by
  obtain ⟨d, hd, rfl⟩ := ofTokens_eq_ok_iff.1 hp
  have hd := toOption_eq_some_iff.2 hd
  have hemitted := emitted_of_class? hd
  obtain ⟨c, hl, hc⟩ := class?_eq_some_iff.1 hd
  obtain ⟨scope, hscope, subs, hsubs, rfl⟩ := classTree?_eq_some_iff.1 hc
  refine ⟨subs, rfl, fun sub hsub => ?_⟩
  obtain ⟨s, hs, htree⟩ := mem_subroutinesTree? hsubs hsub
  have hnames : sub.className = c.name ∧ sub.name = s.name := by
    obtain ⟨header, hheader, body, -, rfl⟩ := subTree?_eq_some_iff.1 htree
    obtain ⟨scope', -, rfl⟩ := header?_eq_some_iff.1 hheader
    exact ⟨rfl, rfl⟩
  have htoken : Token.identifier s.name ∈ (lex source.content).map Lexeme.token := by
    have hname : Token.identifier s.name ∈ s.tokens := by simp [Sub.tokens]
    have hmem := List.mem_flatMap.2 ⟨s, hs, hname⟩
    rw [hl]
    simp [Cls.tokens, braced, hmem]
  refine ⟨⟨(hemitted sub hsub).plain.className, (hemitted sub hsub).name, fun n hn => ?_⟩,
    hnames.1⟩
  rw [hnames.2]
  exact ne_toString_of_mem_lex htoken hn

/-! ## The labels of blocks -/

section blocks

variable {body rest : List Instruction} {c : Context} {t : Site}

theorem functionNames_append (code more : List Instruction) :
    functionNames (code ++ more) = functionNames code ++ functionNames more :=
  List.filterMap_append

theorem functionNames_of_body (hbody : ∀ i ∈ body, i.isFunction = false) :
    functionNames body = [] := by
  rw [functionNames, List.filterMap_eq_nil_iff]
  intro i hi
  have hfunction := hbody i hi
  cases i <;> first | rfl | cases hfunction

theorem scopedLabels_of_body (hbody : ∀ i ∈ body, i.isFunction = false)
    (function? : Option String) (rest : List Instruction) :
    scopedLabels function? (body ++ rest) =
      (labelNames body).map (function?, ·) ++ scopedLabels function? rest := by
  induction body with
  | nil => rfl
  | cons i body ih =>
    obtain ⟨hi, hmore⟩ := List.forall_mem_cons.1 hbody
    cases i with
    | function _ _ => cases hi
    | label name => exact congrArg ((function?, name) :: ·) (ih hmore)
    | _ => exact ih hmore

theorem function?_of_mem_body (hbody : ∀ i ∈ body, i.isFunction = false) (ht : t ∈ sites c body) :
    t.context.function? = c.function? := by
  induction body generalizing c with
  | nil => cases ht
  | cons i body ih =>
    obtain ⟨hi, hmore⟩ := List.forall_mem_cons.1 hbody
    rcases List.mem_cons.1 ht with rfl | ht
    · rfl
    · rw [ih hmore ht, function?_after]
      cases i <;> first | rfl | cases hi

theorem functionNames_code (subs : List Subroutine) :
    functionNames (subs.flatMap Subroutine.code) = subs.map (·.qualifiedName) := by
  induction subs with
  | nil => rfl
  | cons s subs ih =>
    obtain ⟨body, hcode, hbody⟩ := s.exists_body
    rw [List.flatMap_cons, functionNames_append, ih, hcode]
    exact congrArg (s.qualifiedName :: · ++ _) (functionNames_of_body hbody)

theorem scopedLabels_code (function? : Option String) (subs : List Subroutine) :
    scopedLabels function? (subs.flatMap Subroutine.code) =
      subs.flatMap fun s => (labelNames s.code).map (some s.qualifiedName, ·) := by
  induction subs generalizing function? with
  | nil => rfl
  | cons s subs ih =>
    obtain ⟨body, hcode, hbody⟩ := s.exists_body
    have hlabels : labelNames s.code = labelNames body := by rw [hcode]; rfl
    rw [List.flatMap_cons, List.flatMap_cons, hlabels, hcode, List.cons_append]
    exact (scopedLabels_of_body hbody _ _).trans (congrArg _ (ih _))

/-- Behind the header of a subroutine, instructions are in its function. -/
theorem function?_of_mem_code {subs : List Subroutine}
    (ht : t ∈ sites c (subs.flatMap Subroutine.code)) : t.instruction.isFunction = true ∨
      ∃ s ∈ subs, t.context.function? = some s.qualifiedName := by
  induction subs generalizing c with
  | nil => cases ht
  | cons s subs ih =>
    rw [List.flatMap_cons, sites_append, List.mem_append] at ht
    rcases ht with ht | ht
    · obtain ⟨body, hcode, hbody⟩ := s.exists_body
      rw [hcode] at ht
      rcases List.mem_cons.1 ht with rfl | ht
      · exact .inl rfl
      · exact .inr ⟨s, List.mem_cons_self, function?_of_mem_body hbody ht⟩
    · rcases ih ht with hfunction | ⟨s', hs', hfunction⟩
      · exact .inl hfunction
      · exact .inr ⟨s', List.mem_cons_of_mem _ hs', hfunction⟩

end blocks

/-! ## Compiled files -/

/-- What is known of files that hold the code of subroutines. -/
structure Compiled (subs : List Subroutine) (files : List Vm.File) : Prop where
  named : ∀ s ∈ subs, s.Named
  functions : functions files = subs.map (·.qualifiedName)
  branches : branches files =
    subs.flatMap fun s => (labelNames s.code).map (qualified s.qualifiedName)
  inside : ∀ (c : Context), ∀ t ∈ fileSites c files, t.instruction.isFunction = true ∨
    ∃ s ∈ subs, t.context.function? = some s.qualifiedName

/-- The stack machine code of a source text as a file. -/
def objectFile (x : Source × Program) : Vm.File :=
  ⟨x.1.stem ++ ".vm", x.1.stem, x.2.instructions⟩

variable {inputs : List (Source × Program)} {subs : List Subroutine} {files : List Vm.File}
  {name l : String} {options : Options} {b : Builder}

theorem exists_compiled (hcompile : ∀ x ∈ inputs, compile x.1 = .ok x.2) :
    ∃ subs, Compiled subs (inputs.map objectFile) := by
  induction inputs with
  | nil => exact ⟨[], nofun, rfl, rfl, nofun⟩
  | cons x inputs ih =>
    obtain ⟨hx, hrest⟩ := List.forall_mem_cons.1 hcompile
    obtain ⟨own, hcode, hown⟩ := exists_subroutines hx
    obtain ⟨others, hothers⟩ := ih hrest
    have hinstructions : (objectFile x).instructions = own.flatMap Subroutine.code := hcode
    refine ⟨own ++ others, ?_, ?_, ?_, ?_⟩
    · exact List.forall_mem_append.2 ⟨fun s hs => (hown s hs).1, hothers.named⟩
    · rw [List.map_cons, Hack.functions, List.flatMap_cons, ← Hack.functions, hothers.functions,
        hinstructions, functionNames_code, List.map_append]
    · rw [List.map_cons, Hack.branches, List.flatMap_cons, ← Hack.branches, hothers.branches,
        hinstructions, scopedLabels_code, List.flatMap_append, List.map_flatMap]
      simp only [List.map_map]
      rfl
    · intro c t ht
      rcases List.mem_append.1 ht with ht | ht
      · rw [hinstructions] at ht
        rcases function?_of_mem_code ht with hfunction | ⟨s, hs, hfunction⟩
        · exact .inl hfunction
        · exact .inr ⟨s, List.mem_append_left _ hs, hfunction⟩
      · rcases hothers.inside _ t ht with hfunction | ⟨s, hs, hfunction⟩
        · exact .inl hfunction
        · exact .inr ⟨s, List.mem_append_right _ hs, hfunction⟩

namespace Compiled

theorem branch (hc : Compiled subs files) (hl : l ∈ Hack.branches files) :
    ∃ s ∈ subs, ∃ (k : Mark) (n : Nat), l = qualified s.qualifiedName (k.label n) := by
  rw [hc.branches] at hl
  obtain ⟨s, hs, hl⟩ := List.mem_flatMap.1 hl
  obtain ⟨label, hlabel, rfl⟩ := List.mem_map.1 hl
  obtain ⟨k, n, rfl⟩ := Subroutine.exists_mark hlabel
  exact ⟨s, hs, k, n, rfl⟩

/-- Branch labels of subroutines with different names are different. -/
theorem nodup_branches (hc : Compiled subs files) (hf : (Hack.functions files).Nodup) :
    (Hack.branches files).Nodup := by
  rw [hc.functions] at hf
  rw [hc.branches]
  refine List.nodup_flatMap.2 ⟨fun s _ => ?_, ?_⟩
  · refine s.nodup_labelNames.map_on fun label _ label' _ h => ?_
    exact (String.append_right_inj _).1 h
  · refine (List.pairwise_map.1 hf).imp fun {s t} hne l hl hl' => ?_
    obtain ⟨label, hlabel, rfl⟩ := List.mem_map.1 hl
    obtain ⟨label', hlabel', heq⟩ := List.mem_map.1 hl'
    obtain ⟨k, n, rfl⟩ := Subroutine.exists_mark hlabel
    obtain ⟨k', n', rfl⟩ := Subroutine.exists_mark hlabel'
    exact hne (qualified_label_inj (k.dollar_not_mem_label n) (k'.dollar_not_mem_label n')
      heq.symm).1

/-- The call behind which a label stands is in a subroutine, or it is that of the bootstrap. -/
theorem returnLabel (hc : Compiled subs files) (hl : l ∈ returnLabels name options files) :
    ∃ (scope : String) (n : Nat), l = qualified scope ("ret." ++ toString n) ∧
      (n = 0 ∨ '.' ∈ scope.toList) := by
  rcases mem_returnLabels_iff.1 hl with ⟨-, rfl⟩ | ⟨t, ht, hl⟩
  · exact ⟨name, 0, rfl, .inl rfl⟩
  · rw [(Site.eq_of_returnLabel? hl).1, ← qualified_return]
    refine ⟨_, _, rfl, .inr ?_⟩
    rcases hc.inside _ t ht with hfunction | ⟨s, -, hfunction⟩
    · obtain ⟨c, i⟩ := t
      cases i with
      | call _ _ => cases hfunction
      | _ => cases hl
    · rw [Context.scope, hfunction]
      exact period_mem_qualifiedName ..

/-- The label of a conditional or a loop is neither one behind a call nor one of a
comparison. -/
theorem branch_not_generated (hc : Compiled subs files) (hl : l ∈ Hack.branches files) :
    l ∉ generated name options files := by
  obtain ⟨s, -, k, n, rfl⟩ := hc.branch hl
  intro hg
  rcases mem_generated_iff.1 hg with hg | hg | ⟨-, heq⟩
  · obtain ⟨scope, m, heq, -⟩ := hc.returnLabel hg
    have hdollar : '$' ∉ ("ret." ++ toString m).toList := by
      rw [String.toList_append, List.mem_append]
      exact not_or.2 ⟨by decide, not_mem_toString (by decide) m⟩
    have hlabel := (qualified_label_inj (k.dollar_not_mem_label n) hdollar heq).2
    have htext := (numbered_inj k.endsPlain_text (by decide) hlabel).1
    revert htext
    cases k <;> decide
  · obtain ⟨t, -, hg⟩ := mem_comparisonLabels_iff.1 hg
    obtain ⟨condition, -, branch, -, heq, -⟩ := Site.eq_of_mem_comparisonLabels hg
    rw [qualified, Mark.label, ← String.append_assoc] at heq
    have hprefix := (numbered_inj (endsPlain_append _ k.endsPlain_text)
      (endsPlain_comparisonLabel _ _ _) heq).1
    obtain ⟨last, hlast, hne⟩ : ∃ last, k.text.toList.getLast? = some last ∧ last ≠ '_' := by
      cases k <;> exact ⟨_, rfl, by decide⟩
    have hends := congrArg (fun s => s.toList.getLast?) hprefix
    rw [getLast?_toList_append _ hlast, getLast?_toList_append _ rfl] at hends
    exact hne (Option.some.inj hends)
  · have hdollar := dollar_mem_qualified s.qualifiedName (k.label n)
    rw [heq] at hdollar
    exact absurd hdollar (by decide)

/-- A function is named like no generated label but one of a comparison. -/
theorem function_generated (hc : Compiled subs files) {f : String}
    (hf : f ∈ Hack.functions files) (hg : f ∈ generated name options files) :
    f ∈ comparisonLabels name options files := by
  rw [hc.functions] at hf
  obtain ⟨s, hs, rfl⟩ := List.mem_map.1 hf
  have hnamed := hc.named s hs
  have hperiod := period_mem_qualifiedName s.className s.name
  rcases mem_generated_iff.1 hg with hg | hg | ⟨-, heq⟩
  · obtain ⟨scope, n, heq, hscope⟩ := hc.returnLabel hg
    -- what stands behind the last period is the subroutine, or the number of the call
    have hsplit : s.className.toList ++ '.' :: s.name.toList =
        (scope ++ "$ret").toList ++ '.' :: (toString n).toList := by
      rw [← toList_qualifiedName, show qualifiedName s.className s.name = _ from heq,
        qualified_return]
      simp only [String.toList_append, List.append_assoc]
      rfl
    have hdigits : '.' ∉ (toString n).toList := not_mem_toString (by decide) n
    obtain ⟨hclass, hname⟩ := append_cons_inj_right hnamed.name.no_period hdigits hsplit
    rcases hscope with rfl | hscope
    · exact absurd (String.toList_inj.1 hname) (hnamed.not_number 0 (by decide))
    · refine absurd ?_ hnamed.className.no_period
      rw [hclass, String.toList_append]
      exact List.mem_append_left _ hscope
  · exact hg
  · have hperiod : '.' ∈ endLabel.toList := heq ▸ hperiod
    exact absurd hperiod (by decide)

theorem nodup_labels_iff (hc : Compiled subs files) (hb : build name options files = .ok b) :
    (labels b.lines.toList).Nodup ↔ (Hack.functions files).Nodup ∧
      ∀ f ∈ Hack.functions files, f ∉ Hack.branches files ∧
        f ∉ comparisonLabels name options files := by
  rw [Hack.nodup_labels_iff hb]
  constructor
  · rintro ⟨hfunctions, -, hbranches, hgenerated⟩
    refine ⟨hfunctions, fun f hf => ⟨hbranches f hf, fun hcomparison => ?_⟩⟩
    exact (hgenerated f (mem_generated_iff.2 (.inr (.inl hcomparison)))).1 hf
  · rintro ⟨hfunctions, h⟩
    refine ⟨hfunctions, hc.nodup_branches hfunctions, fun f hf => (h f hf).1, fun l hl => ?_⟩
    exact ⟨fun hf => (h l hf).2 (hc.function_generated hf hl),
      fun hl' => hc.branch_not_generated hl' hl⟩

end Compiled

/-- Functions of different classes have different names. -/
theorem nodup_functions_iff (hcompile : ∀ x ∈ inputs, compile x.1 = .ok x.2)
    (hclasses : (inputs.map (·.2.className)).Nodup) :
    (functions (inputs.map objectFile)).Nodup ↔
      ∀ x ∈ inputs, (functionNames x.2.instructions).Nodup := by
  have hclass {x : Source × Program} (hx : x ∈ inputs) {f : String}
      (hf : f ∈ functionNames x.2.instructions) :
      ∃ name, f = qualifiedName x.2.className name ∧ IsPlain x.2.className := by
    obtain ⟨subs, hcode, hsubs⟩ := exists_subroutines (hcompile x hx)
    rw [hcode, functionNames_code] at hf
    obtain ⟨s, hs, rfl⟩ := List.mem_map.1 hf
    obtain ⟨hnamed, hname⟩ := hsubs s hs
    exact ⟨s.name, hname ▸ rfl, hname ▸ hnamed.className⟩
  rw [functions, List.flatMap_map, List.nodup_flatMap]
  refine and_iff_left ?_
  refine (List.pairwise_map.1 hclasses).imp_of_mem fun {x y} hx hy hne f hf hf' => ?_
  obtain ⟨name, rfl, hplain⟩ := hclass hx hf
  obtain ⟨name', heq, hplain'⟩ := hclass hy hf'
  exact hne (qualifiedName_inj hplain hplain' heq).1

/-- Without dollar signs in names and periods in stems, it is enough that each class declares
its subroutines once. -/
theorem nodup_linked_labels (hcompile : ∀ x ∈ inputs, compile x.1 = .ok x.2)
    (hclasses : (inputs.map (·.2.className)).Nodup)
    (hb : build name options (inputs.map objectFile) = .ok b)
    (honce : ∀ x ∈ inputs, (functionNames x.2.instructions).Nodup)
    (hnames : ∀ x ∈ inputs, ∀ f ∈ functionNames x.2.instructions, '$' ∉ f.toList)
    (hstems : ∀ x ∈ inputs, '.' ∉ x.1.stem.toList) : (labels b.lines.toList).Nodup := by
  obtain ⟨subs, hc⟩ := exists_compiled hcompile
  refine (hc.nodup_labels_iff hb).2 ⟨(nodup_functions_iff hcompile hclasses).2 honce, ?_⟩
  intro f hf
  refine ⟨fun hbranch => ?_, fun hcomparison => ?_⟩
  · obtain ⟨file, hfile, hmem⟩ := List.mem_flatMap.1 hf
    obtain ⟨x, hx, rfl⟩ := List.mem_map.1 hfile
    obtain ⟨s, -, k, n, rfl⟩ := hc.branch hbranch
    exact hnames x hx _ hmem (dollar_mem_qualified ..)
  · rw [hc.functions] at hf
    obtain ⟨s, -, rfl⟩ := List.mem_map.1 hf
    exact not_mem_of_mem_comparisonLabels (by decide) (by decide)
      (List.forall_mem_map.2 hstems) hcomparison (period_mem_qualifiedName ..)

/-- **Programs from Jack have unambiguous labels** up to what the compiler leaves unchecked:
classes with different names make a program that defines no label twice exactly if each of
them declares its subroutines once and no function is named like a branch label or the label
of a comparison. -/
theorem linked_labels_iff (hcompile : ∀ x ∈ inputs, compile x.1 = .ok x.2)
    (hclasses : (inputs.map (·.2.className)).Nodup)
    (hb : build name options (inputs.map objectFile) = .ok b) :
    (labels b.lines.toList).Nodup ↔
      (∀ x ∈ inputs, (functionNames x.2.instructions).Nodup) ∧
        ∀ f ∈ functions (inputs.map objectFile), f ∉ branches (inputs.map objectFile) ∧
          f ∉ comparisonLabels name options (inputs.map objectFile) := by
  obtain ⟨subs, hc⟩ := exists_compiled hcompile
  rw [hc.nodup_labels_iff hb, nodup_functions_iff hcompile hclasses]

/-- Two classes that both declare `run`, one with a branch and a comparison in it. -/
def twoClasses : List (Source × Program) :=
  [(⟨"A.jack", "A",
      "class A \x7b function int run(int n) \x7b if (n < 1) \x7b return 0; \x7d return n; \x7d \x7d"⟩,
      ⟨"A", [.function "A.run" 0, .push .argument 0, .push .constant 1, .operate .lt,
        .ifGoto "IF_TRUE0", .goto "IF_FALSE0", .label "IF_TRUE0", .push .constant 0, .return,
        .label "IF_FALSE0", .push .argument 0, .return]⟩),
    (⟨"Sys.jack", "Sys",
      "class Sys \x7b function void init() \x7b do A.run(2); return; \x7d
        function void run() \x7b return; \x7d \x7d"⟩,
      ⟨"Sys", [.function "Sys.init" 0, .push .constant 2, .call "A.run" 1, .pop .temp 0,
        .push .constant 0, .return, .function "Sys.run" 0, .push .constant 0, .return]⟩)]

theorem linked_labels_iff_two_classes :
    (∀ x ∈ twoClasses, compile x.1 = .ok x.2) ∧ (twoClasses.map (·.2.className)).Nodup ∧
      ∃ b, build "Out" ⟨true, false⟩ (twoClasses.map objectFile) = .ok b ∧
        (labels b.lines.toList).length = 9 ∧ (labels b.lines.toList).Nodup := by
  have hcompile : ∀ x ∈ twoClasses, compile x.1 = .ok x.2 := by
    have hall : ∀ x ∈ twoClasses, (compile x.1).toOption = some x.2 := by decide +kernel
    exact fun x hx => toOption_eq_some_iff.1 (hall x hx)
  have hclasses : (twoClasses.map (·.2.className)).Nodup := by decide
  obtain ⟨b, hb⟩ := exists_build
    (show (build "Out" ⟨true, false⟩ (twoClasses.map objectFile)).toOption.isSome by decide +kernel)
  refine ⟨hcompile, hclasses, b, hb, ?_, (linked_labels_iff hcompile hclasses hb).2 ⟨?_, ?_⟩⟩
  · rw [labels_of_build hb]
    decide +kernel
  · decide +kernel
  · decide +kernel

/-- **Subroutines of one class can be merged**: the compiler lets a class declare a subroutine
twice. -/
theorem merged_subroutines :
    let input : Source × Program :=
      (⟨"Main.jack", "Main", "class Main \x7b function void f() \x7b return; \x7d
          function void f() \x7b return; \x7d \x7d"⟩,
        ⟨"Main", [.function "Main.f" 0, .push .constant 0, .return,
          .function "Main.f" 0, .push .constant 0, .return]⟩)
    compile input.1 = .ok input.2 ∧
      ∃ b, build "Main" ⟨false, false⟩ [objectFile input] = .ok b ∧
        labels b.lines.toList = ["Main.f", "Main.f", "END"] ∧
        ¬ (labels b.lines.toList).Nodup := by
  intro input
  obtain ⟨b, hb⟩ := exists_build
    (show (build "Main" ⟨false, false⟩ [objectFile input]).toOption.isSome by decide +kernel)
  have hlabels : labels b.lines.toList = ["Main.f", "Main.f", "END"] := by
    rw [labels_of_build hb]
    decide +kernel
  refine ⟨toOption_eq_some_iff.1 (by decide +kernel), b, hb, hlabels, ?_⟩
  rw [hlabels]
  decide

end JackToolchain.Jack
