import Mathlib.Data.List.Nodup
import Mathlib.Data.List.Perm.Basic
import JackToolchain.Proofs.Hack.Access
import JackToolchain.Proofs.Hack.Sites
import JackToolchain.Proofs.Text.Joined
import JackToolchain.Proofs.Vm.Run

/-!
# The labels of a program

A program defines the names of its functions, the branch labels with what qualifies them, a
label behind each call, two labels for each comparison and the label of its halt loop. They
are all names of the assembler.

* `perm_labels_of_build`: the labels of a program by what they are for.
* `nodup_generated`: **generated labels are pairwise different**, whatever the names around
  them.
* `nodup_labels_iff`: a program defines no label twice exactly if its functions and branch
  labels are pairwise different and none of them is generated.
-/

namespace JackToolchain.Vm

/-- The function that an instruction starts. -/
@[simp] def Instruction.functionName? : Instruction → Option String
  | .function name _ => some name
  | _ => none

/-- The functions that code starts. -/
def functionNames (code : List Instruction) : List String :=
  code.filterMap Instruction.functionName?

/-- The labels that code defines, each with the function that it is in. -/
def scopedLabels (function? : Option String) : List Instruction → List (Option String × String)
  | [] => []
  | .label name :: code => (function?, name) :: scopedLabels function? code
  | .function name _ :: code => scopedLabels (some name) code
  | _ :: code => scopedLabels function? code

end JackToolchain.Vm

namespace JackToolchain.Hack

open Vm Text

/-- The label that a line defines. -/
def Line.label? : Line → Option String
  | .label name => some name
  | _ => none

/-- The labels that lines define. -/
def labels (lines : List Line) : List String :=
  lines.filterMap Line.label?

/-- A label in a function, or in the file outside functions. -/
def qualified (scope label : String) : String :=
  scope ++ "$" ++ label

/-- A label of a comparison. -/
def comparisonLabel (stem : String) (number : Nat) (condition : Condition) (branch : String) :
    String :=
  "__" ++ condition.text ++ "_" ++ branch ++ "_" ++ stem ++ "_" ++ toString number

/-- The parts of such a label beside the stem and the number. -/
def comparisonParts : List String :=
  ["__", "_", "JEQ", "JGT", "JLT", "TRUE", "END"]

namespace Site

/-- The function that an instruction starts. -/
def functionName? (s : Site) : Option String :=
  s.instruction.functionName?

/-- The branch label that an instruction defines. -/
def branchLabel? (s : Site) : Option String :=
  s.instruction.labelName?.map (qualified s.context.scope)

/-- The label behind a call. -/
def returnLabel? (s : Site) : Option String :=
  match s.instruction with
  | .call _ _ => some s.context.returnLabel
  | _ => none

/-- The condition that a comparison tests. -/
def condition? (s : Site) : Option Condition :=
  match s.instruction with
  | .operate .eq => some .equal
  | .operate .gt => some .greater
  | .operate .lt => some .less
  | _ => none

/-- The labels of a comparison. -/
def comparisonLabels (s : Site) : List String :=
  match s.condition? with
  | some condition =>
    [comparisonLabel s.context.stem s.context.comparisons condition "TRUE",
     comparisonLabel s.context.stem s.context.comparisons condition "END"]
  | none => []

/-- The labels that an instruction has when it is lowered. -/
def labels (s : Site) : List String :=
  s.functionName?.toList ++ s.branchLabel?.toList ++ s.returnLabel?.toList ++ s.comparisonLabels

end Site

/-- The functions of files. -/
def functions (files : List File) : List String :=
  files.flatMap fun file => functionNames file.instructions

/-- The branch labels of files. -/
def branches (files : List File) : List String :=
  files.flatMap fun file =>
    (scopedLabels none file.instructions).map fun l => qualified (l.1.getD file.stem) l.2

section families

variable (name : String) (options : Options) (files : List File)

/-- The labels behind the calls of a program. -/
def returnLabels : List String :=
  (programSites name options files).filterMap Site.returnLabel?

/-- The labels of the comparisons of a program. -/
def comparisonLabels : List String :=
  (programSites name options files).flatMap Site.comparisonLabels

/-- The labels of a program that no instruction names. -/
def generated : List String :=
  returnLabels name options files ++ comparisonLabels name options files ++
    if options.bootstrap then [] else [endLabel]

end families

variable {name : String} {options : Options} {b : Builder} {files : List File} {c : Context}
  {i : Instruction} {is : List Instruction} {lines : List Line} {s t : Site} {l : String}

/-! ## The labels of an instruction -/

theorem labels_append (lines more : List Line) :
    labels (lines ++ more) = labels lines ++ labels more :=
  List.filterMap_append

theorem labels_flatMap {α : Type} (xs : List α) (f : α → List Line) :
    labels (xs.flatMap f) = xs.flatMap fun x => labels (f x) :=
  List.filterMap_flatMap ..

theorem labels_lowerPush {segment : Segment} {index : Nat}
    (h : lowerPush c segment index = .ok lines) : labels lines = [] := by
  obtain ⟨-, rfl⟩ | ⟨register, -, rfl⟩ | ⟨cell, -, rfl⟩ := lowerPush_cases h
  all_goals rfl

theorem labels_lowerPop {segment : Segment} {index : Nat}
    (h : lowerPop c segment index = .ok lines) : labels lines = [] := by
  obtain ⟨register, -, rfl⟩ | ⟨cell, -, rfl⟩ := lowerPop_cases h
  all_goals rfl

theorem labels_lowerFunction (function : String) (locals : Nat) :
    labels (lowerFunction function locals) = [function] := by
  have hzeros : labels (List.replicate locals (.assign .d .zero :: pushD)).flatten = [] := by
    induction locals with
    | zero => rfl
    | succ locals ih =>
      rw [List.replicate_succ, List.flatten_cons, labels_append, ih]
      rfl
  exact congrArg (function :: ·) hzeros

theorem labels_lower (h : lower c i = .ok lines) : labels lines = Site.labels ⟨c, i⟩ := by
  cases i with
  | push segment index => exact labels_lowerPush h
  | pop segment index => exact labels_lowerPop h
  | function function locals =>
    cases h
    exact labels_lowerFunction function locals
  | operate operator =>
    cases h
    cases operator <;> rfl
  | label _ | goto _ | ifGoto _ | call _ _ | «return» =>
    cases h
    rfl

/-- An instruction without lines has no labels either. -/
theorem labels_lines (annotate : Bool) (s : Site) : labels (s.lines annotate) = s.labels := by
  have hcomment : labels (if annotate then [.comment s.instruction.text] else []) = [] := by
    cases annotate <;> rfl
  rw [Site.lines, labels_append, hcomment, List.nil_append]
  cases hlower : lower s.context s.instruction with
  | ok lines => exact labels_lower hlower
  | error cause =>
    obtain ⟨c, i⟩ := s
    cases i with
    | push _ _ | pop _ _ => rfl
    | _ => cases hlower

/-! ## The labels of a program -/

theorem filterMap_functionName?_sites (c : Context) (is : List Instruction) :
    (sites c is).filterMap Site.functionName? = functionNames is := by
  induction is generalizing c with
  | nil => rfl
  | cons i is ih =>
    rw [functionNames, sites, List.filterMap_cons, List.filterMap_cons, ih]
    rfl

theorem filterMap_branchLabel?_sites (c : Context) (is : List Instruction) :
    (sites c is).filterMap Site.branchLabel? =
      (scopedLabels c.function? is).map fun l => qualified (l.1.getD c.stem) l.2 := by
  induction is generalizing c with
  | nil => rfl
  | cons i is ih =>
    rw [sites, List.filterMap_cons, ih]
    cases i with
    | operate operator => cases operator <;> rfl
    | _ => rfl

theorem filterMap_functionName?_fileSites (c : Context) (files : List File) :
    (fileSites c files).filterMap Site.functionName? = functions files := by
  induction files generalizing c with
  | nil => rfl
  | cons file files ih =>
    rw [fileSites, List.filterMap_append, ih, filterMap_functionName?_sites]
    rfl

theorem filterMap_branchLabel?_fileSites (c : Context) (files : List File) :
    (fileSites c files).filterMap Site.branchLabel? = branches files := by
  induction files generalizing c with
  | nil => rfl
  | cons file files ih =>
    rw [fileSites, List.filterMap_append, ih, filterMap_branchLabel?_sites]
    rfl

/-- A family of labels that the bootstrap is not in. -/
theorem filterMap_programSites {f : Site → Option String} (hf : f (entrySite name) = none) :
    (programSites name options files).filterMap f =
      (fileSites (startContext name options) files).filterMap f := by
  unfold programSites
  split
  · rw [List.singleton_append, List.filterMap_cons, hf]
  · rfl

theorem labels_of_build (h : build name options files = .ok b) :
    labels b.lines.toList = (programSites name options files).flatMap Site.labels ++
      if options.bootstrap then [] else [endLabel] := by
  have hlines : ∀ ss : List Site,
      labels (ss.flatMap (Site.lines options.annotate)) = ss.flatMap Site.labels := by
    intro ss
    simp only [labels_flatMap, labels_lines]
  rw [toList_lines_of_build h, labels_append, labels_append, hlines]
  unfold openingLines closingLines programSites
  cases options.bootstrap with
  | true =>
    simp only [if_true, List.flatMap_append, List.flatMap_singleton, labels_append, labels_lines]
    rfl
  | false => rfl

/-- The labels of instructions by what they are for. -/
theorem perm_labels (ss : List Site) :
    (ss.flatMap Site.labels).Perm
      (ss.filterMap Site.functionName? ++ ss.filterMap Site.branchLabel? ++
        ss.filterMap Site.returnLabel? ++ ss.flatMap Site.comparisonLabels) := by
  simp only [List.filterMap_eq_flatMap_toList]
  refine .symm ?_
  refine .trans (.append_right _ (.append_right _ (List.flatMap_append_perm ..))) ?_
  refine .trans (.append_right _ (List.flatMap_append_perm ..)) ?_
  exact List.flatMap_append_perm ..

/-- The labels of a program by what they are for. -/
theorem perm_labels_of_build (h : build name options files = .ok b) :
    (labels b.lines.toList).Perm
      (functions files ++ branches files ++ generated name options files) := by
  rw [labels_of_build h]
  refine .trans (.append_right _ (perm_labels _)) ?_
  rw [filterMap_programSites rfl, filterMap_programSites rfl, filterMap_functionName?_fileSites,
    filterMap_branchLabel?_fileSites]
  simp only [generated, returnLabels, comparisonLabels, List.append_assoc]
  exact .refl _

/-! ## Generated labels -/

/-- A label behind a call ends with the number of calls before it, which the call is not
among. -/
theorem Site.eq_of_returnLabel? (h : s.returnLabel? = some l) :
    l = s.context.scope ++ "$ret." ++ toString s.context.calls ∧
      s.context.calls < (s.context.after s.instruction).calls := by
  obtain ⟨c, i⟩ := s
  cases i with
  | call function arguments =>
    cases h
    refine ⟨?_, Nat.lt_succ_self _⟩
    simp only [Context.returnLabel, Context.qualify, String.append_assoc]
    rfl
  | _ => cases h

theorem Site.eq_of_condition? {condition : Condition} (h : s.condition? = some condition) :
    condition ∈ [Condition.equal, .greater, .less] ∧
      s.context.comparisons < (s.context.after s.instruction).comparisons := by
  obtain ⟨c, i⟩ := s
  cases i with
  | operate operator =>
    cases operator with
    | eq | gt | lt =>
      cases h
      exact ⟨by decide, Nat.lt_succ_self _⟩
    | _ => cases h
  | _ => cases h

/-- The labels of a comparison end with the number of comparisons before it, which it is not
among. -/
theorem Site.eq_of_mem_comparisonLabels (h : l ∈ s.comparisonLabels) :
    ∃ condition ∈ [Condition.equal, .greater, .less], ∃ branch ∈ ["TRUE", "END"],
      l = comparisonLabel s.context.stem s.context.comparisons condition branch ∧
        s.context.comparisons < (s.context.after s.instruction).comparisons := by
  unfold Site.comparisonLabels at h
  cases hcondition : s.condition? with
  | none =>
    rw [hcondition] at h
    cases h
  | some condition =>
    rw [hcondition] at h
    obtain ⟨hmem, hlt⟩ := Site.eq_of_condition? hcondition
    rcases List.mem_pair.1 h with rfl | rfl
    · exact ⟨condition, hmem, "TRUE", by decide, rfl, hlt⟩
    · exact ⟨condition, hmem, "END", by decide, rfl, hlt⟩

/-- What stands before the number of a label behind a call. -/
theorem endsPlain_returnLabel (scope : String) : endsPlain (scope ++ "$ret.") :=
  endsPlain_append scope (by decide)

/-- What stands before the number of a label of a comparison. -/
theorem endsPlain_comparisonLabel (stem : String) (condition : Condition) (branch : String) :
    endsPlain ("__" ++ condition.text ++ "_" ++ branch ++ "_" ++ stem ++ "_") :=
  endsPlain_append _ (by decide)

theorem nodup_returnLabels (name : String) (options : Options) (files : List File) :
    (returnLabels name options files).Nodup := by
  refine List.pairwise_filterMap.2 ((pairwise_programSites name options files).imp ?_)
  rintro s t hbefore l hs _ ht rfl
  obtain ⟨rfl, hlt⟩ := Site.eq_of_returnLabel? hs
  obtain ⟨heq, -⟩ := Site.eq_of_returnLabel? ht
  have hcalls := (numbered_inj (endsPlain_returnLabel _) (endsPlain_returnLabel _) heq).2
  have hle := hbefore.calls
  omega

/-- The two labels of a comparison differ in their length. -/
theorem Site.nodup_comparisonLabels (s : Site) : s.comparisonLabels.Nodup := by
  unfold Site.comparisonLabels
  cases s.condition? with
  | none => exact List.nodup_nil
  | some condition =>
    refine List.nodup_cons.2 ⟨?_, List.nodup_singleton _⟩
    intro h
    have hlength := congrArg String.length (List.mem_singleton.1 h)
    simp only [comparisonLabel, String.length_append, Nat.add_right_cancel_iff,
      Nat.add_left_cancel_iff] at hlength
    exact absurd hlength (by decide)

theorem nodup_comparisonLabels (name : String) (options : Options) (files : List File) :
    (comparisonLabels name options files).Nodup := by
  refine List.nodup_flatMap.2 ⟨fun s _ => s.nodup_comparisonLabels, ?_⟩
  refine (pairwise_programSites name options files).imp ?_
  intro s t hbefore l hs ht
  obtain ⟨condition, -, branch, -, rfl, hlt⟩ := Site.eq_of_mem_comparisonLabels hs
  obtain ⟨condition', -, branch', -, heq, -⟩ := Site.eq_of_mem_comparisonLabels ht
  have hcomparisons := (numbered_inj (endsPlain_comparisonLabel _ _ _)
    (endsPlain_comparisonLabel _ _ _) heq).2
  have hle := hbefore.comparisons
  omega

theorem toList_qualified (scope label : String) :
    (qualified scope label).toList = scope.toList ++ '$' :: label.toList := by
  rw [qualified, String.toList_append, String.toList_append, List.append_assoc]
  rfl

theorem dollar_mem_qualified (scope label : String) : '$' ∈ (qualified scope label).toList := by
  rw [toList_qualified]
  exact List.mem_append_right _ List.mem_cons_self

/-- A character that is neither in the fixed parts nor in the stem is not in the label of a
comparison. -/
theorem not_mem_comparisonLabel {stem branch : String} {condition : Condition} {ch : Char}
    (hdigit : ch.isDigit = false) (hparts : ∀ part ∈ comparisonParts, ch ∉ part.toList)
    (hcondition : condition ∈ [Condition.equal, .greater, .less]) (hbranch : branch ∈ ["TRUE", "END"])
    (hstem : ch ∉ stem.toList) (n : Nat) : ch ∉ (comparisonLabel stem n condition branch).toList := by
  have hconditions : ∀ condition ∈ [Condition.equal, .greater, .less],
      condition.text ∈ comparisonParts := by decide
  have hbranches : ∀ branch ∈ ["TRUE", "END"], branch ∈ comparisonParts := by decide
  have hcondition := hparts _ (hconditions condition hcondition)
  have hbranch := hparts _ (hbranches branch hbranch)
  have hbeginning := hparts "__" (by decide)
  have hline := hparts "_" (by decide)
  have hnumber := not_mem_toString hdigit n
  simp only [comparisonLabel, String.toList_append, List.mem_append, hcondition, hbranch,
    hbeginning, hline, hstem, hnumber, or_self, not_false_eq_true]

theorem qualified_return (scope : String) (n : Nat) :
    qualified scope ("ret." ++ toString n) = scope ++ "$ret." ++ toString n := by
  simp only [qualified, String.append_assoc]
  rfl

/-- The label behind the call of the bootstrap is made of the name of the program, and the
others are in files. -/
theorem mem_returnLabels_iff : l ∈ returnLabels name options files ↔
    (options.bootstrap = true ∧ l = qualified name ("ret." ++ toString 0)) ∨
      ∃ s ∈ fileSites (startContext name options) files, s.returnLabel? = some l := by
  have hentry : (entrySite name).returnLabel? = some (qualified name ("ret." ++ toString 0)) := rfl
  rw [returnLabels, List.mem_filterMap]
  unfold programSites
  cases options.bootstrap with
  | true => simp [hentry, eq_comm]
  | false => simp

theorem mem_comparisonLabels_iff : l ∈ comparisonLabels name options files ↔
    ∃ s ∈ fileSites (startContext name options) files, l ∈ s.comparisonLabels := by
  have hentry : (entrySite name).comparisonLabels = [] := rfl
  rw [comparisonLabels, List.mem_flatMap]
  unfold programSites
  cases options.bootstrap with
  | true => simp [hentry]
  | false => simp

theorem mem_generated_iff : l ∈ generated name options files ↔
    l ∈ returnLabels name options files ∨ l ∈ comparisonLabels name options files ∨
      (options.bootstrap = false ∧ l = endLabel) := by
  unfold generated
  cases options.bootstrap <;> simp

/-- **Generated labels are pairwise different**, whatever the names of the functions and the
files that they are made from. -/
theorem nodup_generated (name : String) (options : Options) (files : List File) :
    (generated name options files).Nodup := by
  have hreturn : ∀ l ∈ returnLabels name options files,
      ∃ (scope : String) (n : Nat), l = scope ++ "$ret." ++ toString n := by
    intro l hl
    obtain ⟨s, -, hs⟩ := List.mem_filterMap.1 hl
    exact ⟨_, _, (Site.eq_of_returnLabel? hs).1⟩
  have hcomparison : ∀ l ∈ comparisonLabels name options files,
      ∃ stem n condition branch, l = comparisonLabel stem n condition branch := by
    intro l hl
    obtain ⟨s, -, hs⟩ := List.mem_flatMap.1 hl
    obtain ⟨condition, -, branch, -, rfl, -⟩ := Site.eq_of_mem_comparisonLabels hs
    exact ⟨_, _, _, _, rfl⟩
  refine List.nodup_append'.2 ⟨List.nodup_append'.2
    ⟨nodup_returnLabels .., nodup_comparisonLabels .., ?_⟩, ?_, ?_⟩
  · -- what stands before the numbers ends differently
    intro l hl hl'
    obtain ⟨scope, n, rfl⟩ := hreturn l hl
    obtain ⟨stem, n', condition, branch, heq⟩ := hcomparison _ hl'
    have hprefix := (numbered_inj (endsPlain_returnLabel _) (endsPlain_comparisonLabel _ _ _) heq).1
    have hlast := congrArg (fun s => s.toList.getLast?) hprefix
    rw [getLast?_toList_append scope rfl, getLast?_toList_append _ rfl] at hlast
    exact absurd (Option.some.inj hlast) (by decide)
  · split
    · exact List.nodup_nil
    · exact List.nodup_singleton _
  · intro l hl hl'
    split at hl'
    · cases hl'
    · obtain rfl := List.mem_singleton.1 hl'
      rcases List.mem_append.1 hl with hl | hl
      · obtain ⟨scope, n, heq⟩ := hreturn _ hl
        have hdollar := dollar_mem_qualified scope ("ret." ++ toString n)
        rw [qualified_return, ← heq] at hdollar
        exact absurd hdollar (by decide)
      · obtain ⟨stem, n, condition, branch, heq⟩ := hcomparison _ hl
        have hline : '_' ∈ (comparisonLabel stem n condition branch).toList := by
          simp [comparisonLabel]
        rw [← heq] at hline
        exact absurd hline (by decide)

/-- A program defines no label twice exactly if its functions and its branch labels are
pairwise different and none of them is generated. -/
theorem nodup_labels_iff (h : build name options files = .ok b) :
    (labels b.lines.toList).Nodup ↔
      (functions files).Nodup ∧ (branches files).Nodup ∧
        (∀ f ∈ functions files, f ∉ branches files) ∧
        ∀ l ∈ generated name options files, l ∉ functions files ∧ l ∉ branches files := by
  rw [(perm_labels_of_build h).nodup_iff, List.nodup_append', List.nodup_append']
  simp only [List.disjoint_left, List.mem_append, nodup_generated, true_and, and_assoc]
  refine and_congr_right' (and_congr_right' (and_congr_right' ?_))
  constructor
  · intro hdisjoint l hl
    exact ⟨fun hf => hdisjoint (.inl hf) hl, fun hb => hdisjoint (.inr hb) hl⟩
  · rintro hdisjoint l (hf | hb) hl
    · exact (hdisjoint l hl).1 hf
    · exact (hdisjoint l hl).2 hb

/-! ## Places -/

theorem function?_after (c : Context) (i : Instruction) :
    (c.after i).function? = i.functionName?.or c.function? := by
  cases i with
  | operate operator => cases operator <;> rfl
  | _ => rfl

/-- An instruction is in a function of the code around it, or in the function or the file that
the code starts in. -/
theorem place_of_mem_sites (hs : s ∈ sites c is) :
    s.context.stem = c.stem ∧ ∀ f, s.context.function? = some f →
      c.function? = some f ∨ f ∈ functionNames is := by
  induction is generalizing c with
  | nil => cases hs
  | cons i is ih =>
    rcases List.mem_cons.1 hs with rfl | hs
    · exact ⟨rfl, fun f hf => .inl hf⟩
    · obtain ⟨hstem, hfunction⟩ := ih hs
      refine ⟨hstem.trans (stem_after c i), fun f hf => ?_⟩
      have hcons : functionNames (i :: is) = i.functionName?.toList ++ functionNames is := by
        cases i <;> rfl
      rw [hcons, List.mem_append, Option.mem_toList]
      have hbehind := hfunction f hf
      rw [function?_after, Option.or_eq_some_iff] at hbehind
      rcases hbehind with (hi | ⟨-, hc⟩) | his
      · exact .inr (.inl hi)
      · exact .inl hc
      · exact .inr (.inr his)

theorem place_of_mem_fileSites (hs : s ∈ fileSites c files) :
    ∃ file ∈ files, s.context.stem = file.stem ∧
      ∀ f, s.context.function? = some f → f ∈ functionNames file.instructions := by
  induction files generalizing c with
  | nil => cases hs
  | cons file files ih =>
    rcases List.mem_append.1 hs with hs | hs
    · obtain ⟨hstem, hfunction⟩ := place_of_mem_sites hs
      exact ⟨file, List.mem_cons_self, hstem, fun f hf => (hfunction f hf).resolve_left nofun⟩
    · obtain ⟨file', hfile, hplace⟩ := ih hs
      exact ⟨file', List.mem_cons_of_mem _ hfile, hplace⟩

/-- What qualifies a label is a function or the stem of a file. -/
theorem scope_of_mem_fileSites (hs : s ∈ fileSites c files) :
    s.context.scope ∈ functions files ∨ ∃ file ∈ files, s.context.scope = file.stem := by
  obtain ⟨file, hfile, hstem, hfunction⟩ := place_of_mem_fileSites hs
  unfold Context.scope
  cases hf : s.context.function? with
  | none => exact .inr ⟨file, hfile, hstem⟩
  | some f => exact .inl (List.mem_flatMap.2 ⟨file, hfile, hfunction f hf⟩)

/-- The function that a label is in is the one that the code starts in or one of its own. -/
theorem function_of_mem_scopedLabels {function? : Option String} {l : Option String × String}
    (hl : l ∈ scopedLabels function? is) :
    ∀ f, l.1 = some f → function? = some f ∨ f ∈ functionNames is := by
  induction is generalizing function? with
  | nil => cases hl
  | cons i is ih =>
    cases i with
    | function g _ =>
      intro f hf
      rcases ih hl f hf with hg | hmem
      · exact .inr (Option.some.inj hg ▸ List.mem_cons_self)
      · exact .inr (List.mem_cons_of_mem _ hmem)
    | label _ =>
      rcases List.mem_cons.1 hl with rfl | hl
      · exact fun f hf => .inl hf
      · exact ih hl
    | _ => exact ih hl

/-- A character that is neither in the fixed parts nor in a stem is in no label of a
comparison. -/
theorem not_mem_of_mem_comparisonLabels {ch : Char} (hdigit : ch.isDigit = false)
    (hparts : ∀ part ∈ comparisonParts, ch ∉ part.toList)
    (hstems : ∀ file ∈ files, ch ∉ file.stem.toList) (hl : l ∈ comparisonLabels name options files) :
    ch ∉ l.toList := by
  obtain ⟨s, hs, hl⟩ := mem_comparisonLabels_iff.1 hl
  obtain ⟨condition, hcondition, branch, hbranch, rfl, -⟩ := Site.eq_of_mem_comparisonLabels hl
  obtain ⟨file, hfile, hstem, -⟩ := place_of_mem_fileSites hs
  exact not_mem_comparisonLabel hdigit hparts hcondition hbranch (hstem ▸ hstems file hfile) _

end JackToolchain.Hack
