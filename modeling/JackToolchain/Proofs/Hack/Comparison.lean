import JackToolchain.Proofs.Hack.Calling
import JackToolchain.Proofs.Hack.Freshness

/-!
# Comparisons on the processor

A comparison subtracts its operands and tests the sign of the difference, which is a word
itself. Two labels of its own lead to the code for either outcome and behind it.

* `run_compareTop`: a comparison leaves the truth of its condition on the difference.
* `Comparable`: the difference of two signed words is a signed word.
* `run_lowerComparison`: **a comparison is right exactly if its operands are comparable**, or if
  it asks for equality.
* `wrapped_comparison`: it can be wrong.
-/

namespace JackToolchain.Hack

open Vm Assembled

variable {p : Assembled} {c : Context} {σ : Cpu} {stem : String} {number : Nat}
  {condition : Condition} {x y : Word}

/-! ## The lines of a comparison -/

section lines

variable (stem : String) (number : Nat) (condition : Condition)

/-- The lines of a comparison up to its jump. -/
def testLines : List Line :=
  combineTop .mMinusD ++
    [.assign .d .m, addressOf (comparisonLabel stem number condition "TRUE")]

/-- The lines of a comparison that does not hold. -/
def failLines : List Line :=
  replaceTop .zero ++ goto (comparisonLabel stem number condition "END")

/-- The lines of a comparison that holds. -/
def holdLines : List Line :=
  .label (comparisonLabel stem number condition "TRUE") :: replaceTop .minusOne

theorem compareTop_eq : compareTop stem number condition =
    testLines stem number condition ++ [.jump .d condition] ++ failLines stem number condition ++
      holdLines stem number condition ++ [.label (comparisonLabel stem number condition "END")] := by
  simp only [compareTop, testLines, failLines, holdLines, comparisonLabel, List.append_assoc,
    List.cons_append, List.nil_append]

end lines

/-- The label of a comparison is none of the names that the assembler knows. -/
theorem lookup_comparisonLabel (stem : String) (number : Nat) (condition : Condition)
    (branch : String) : predefined.lookup (comparisonLabel stem number condition branch) = none := by
  have hnames : ∀ q ∈ predefined, q.1.toList.head? ≠ some '_' := by decide
  refine List.lookup_eq_none_iff.2 fun q hq => ?_
  have hne : comparisonLabel stem number condition branch ≠ q.1 := by
    intro heq
    refine hnames q hq ?_
    rw [← heq]
    simp [comparisonLabel]
  simpa using hne

/-! ## Running a comparison -/

theorem exec_testLines (h : 258 ≤ (σ.ram SP).toNat) :
    p.exec (testLines stem number condition) σ =
      some ⟨p.resolve (.symbol (comparisonLabel stem number condition "TRUE")),
        σ.ram (σ.ram SP - 2) - σ.ram (σ.ram SP - 1),
        Function.update (Function.update σ.ram SP (σ.ram SP - 1)) (σ.ram SP - 2)
          (σ.ram (σ.ram SP - 2) - σ.ram (σ.ram SP - 1)), σ.pc + 7⟩ := by
  have hsub : σ.ram SP - 1 - 1 = σ.ram SP - 2 := by bv_omega
  refine exec_seq (exec_combineTop (f := fun x y => x - y) (fun _ => rfl) (by bv_omega)
    (by bv_omega)) ?_
  rw [hsub]
  simp only [Assembled.exec, perform, Destination.store, Comp.value?, Option.map_some, Option.bind_some,
    Function.update_self, addressOf]

theorem step_jump {outcome : Bool} (hp : p.Holds σ.pc [.jump .d condition])
    (houtcome : condition.holds? σ.d = some outcome) :
    p.step σ = some { σ with pc := if outcome then σ.a.toNat else σ.pc + 1 } := by
  have hfetch : (instructions p.lines)[σ.pc]? = some (.jump .d condition) := hp.head rfl
  rw [Assembled.step, hfetch]
  simp only [Comp.value?, houtcome, Option.bind_some, Option.pure_def, Option.bind_eq_bind]

/-- The test leaves the difference on the stack and jumps if the condition holds. -/
theorem reaches_test {outcome : Bool}
    (hp : p.Holds σ.pc (testLines stem number condition ++ [.jump .d condition]))
    (hsp : 258 ≤ (σ.ram SP).toNat)
    (houtcome : condition.holds? (σ.ram (σ.ram SP - 2) - σ.ram (σ.ram SP - 1)) = some outcome) :
    ∃ τ, p.Reaches σ τ ∧ τ.ram = Function.update (Function.update σ.ram SP (σ.ram SP - 1))
        (σ.ram SP - 2) (σ.ram (σ.ram SP - 2) - σ.ram (σ.ram SP - 1)) ∧
      τ.pc = if outcome then
          (p.resolve (.symbol (comparisonLabel stem number condition "TRUE"))).toNat
        else σ.pc + size (testLines stem number condition ++ [.jump .d condition]) := by
  obtain ⟨τ, hτ⟩ : ∃ τ, p.exec (testLines stem number condition) σ = some τ :=
    ⟨_, exec_testLines hsp⟩
  have hstate := Option.some.inj (hτ.symm.trans (exec_testLines hsp))
  obtain ⟨hrun, hpc⟩ := run_exec hp.left hτ
  have hd : condition.holds? τ.d = some outcome := by rw [hstate]; exact houtcome
  refine ⟨_, (Reaches.of_run hrun).trans (.of_step (step_jump (hpc ▸ hp.right) hd)), ?_, ?_⟩
  · rw [hstate]
  · rw [hpc, hstate, size_append, Nat.add_assoc]
    rfl

/-- Either branch replaces the difference on top of the stack. -/
theorem exec_outcome {τ : Cpu} {v d : Word} (value : Comp) (hv : ∀ τ : Cpu, value.value? τ = some v)
    (h : 258 ≤ (σ.ram SP).toNat)
    (hτ : τ.ram = Function.update (Function.update σ.ram SP (σ.ram SP - 1)) (σ.ram SP - 2) d) :
    ∃ τ', p.exec (replaceTop value) τ = some τ' ∧
      τ'.ram = Function.update (Function.update σ.ram (σ.ram SP - 2) v) SP (σ.ram SP - 1) := by
  have hsub : σ.ram SP - 1 - 1 = σ.ram SP - 2 := by bv_omega
  have hne : σ.ram SP - 2 ≠ SP := ne_of_high (by bv_omega)
  have hSP : τ.ram SP = σ.ram SP - 1 := by
    rw [hτ, Function.update_of_ne hne.symm, Function.update_self]
  refine ⟨_, exec_replaceTop (f := fun _ => v) hv, ?_⟩
  dsimp only
  rw [hSP, hsub, hτ, Function.update_idem, Function.update_comm hne]

/-- The memory after a comparison with a given outcome. -/
def compared (ram : Ram) (outcome : Bool) : Ram :=
  Function.update (Function.update ram (ram SP - 2) (Arithmetic.truth outcome)) SP (ram SP - 1)

/-- **A comparison leaves the truth of its condition on the difference**, and goes on behind its
lines. -/
theorem run_compareTop {outcome : Bool}
    (hp : p.Holds σ.pc (compareTop stem number condition))
    (htrue : p.DefinesOnce (comparisonLabel stem number condition "TRUE"))
    (hend : p.DefinesOnce (comparisonLabel stem number condition "END"))
    (hsp : 258 ≤ (σ.ram SP).toNat)
    (houtcome : condition.holds? (σ.ram (σ.ram SP - 2) - σ.ram (σ.ram SP - 1)) = some outcome) :
    ∃ σ', p.Reaches σ σ' ∧ σ'.pc = σ.pc + size (compareTop stem number condition) ∧
      σ'.ram = compared σ.ram outcome := by
  rw [compareTop_eq] at hp ⊢
  obtain ⟨τ, htest, hram, hpc⟩ := reaches_test hp.left.left.left hsp houtcome
  cases outcome with
  | true =>
    -- the jump is taken to the first label, and behind the last one there is no instruction
    have hhold := hp.left.right
    rw [if_pos rfl, hhold.toNat_resolve_label htrue] at hpc
    obtain ⟨σ', hx, hσ'⟩ := exec_outcome (p := p) .minusOne (fun _ => rfl) hsp hram
    have hlines : p.exec (holdLines stem number condition) τ = some σ' := hx
    obtain ⟨hrun, hstop⟩ := run_exec (hpc ▸ hhold) hlines
    refine ⟨σ', htest.trans (.of_run hrun), ?_, hσ'⟩
    rw [hstop, hpc, Nat.add_assoc, ← size_append, size_append _ [Line.label _]]
    rfl
  | false =>
    rw [if_neg Bool.false_ne_true] at hpc
    have hfail := hp.left.left.right
    rw [← hpc] at hfail
    obtain ⟨τ', hx, hτ'⟩ := exec_outcome (p := p) .zero (fun _ => rfl) hsp hram
    obtain ⟨hrun, hnext⟩ := run_exec hfail.left hx
    obtain ⟨σ', hgoto, hstop, hkeep⟩ := reaches_goto (hnext ▸ hfail.right)
    refine ⟨σ', htest.trans ((Reaches.of_run hrun).trans hgoto), ?_, hkeep.trans hτ'⟩
    rw [hstop, hp.right.toNat_resolve_label hend, size_append _ [Line.label _]]
    rfl

/-! ## The order of signed words -/

/-- Whether the difference of two signed words is a signed word. -/
def Comparable (x y : Word) : Prop :=
  -32768 ≤ x.toInt - y.toInt ∧ x.toInt - y.toInt < 32768

instance (x y : Word) : Decidable (Comparable x y) :=
  inferInstanceAs (Decidable (_ ∧ _))

/-- A difference that is no signed word has the wrong sign. -/
theorem toInt_sub_cases (x y : Word) :
    (Comparable x y ∧ (x - y).toInt = x.toInt - y.toInt) ∨
    (¬ Comparable x y ∧ y.toInt < x.toInt ∧ (x - y).toInt < 0) ∨
    (¬ Comparable x y ∧ x.toInt < y.toInt ∧ 0 < (x - y).toInt) := by
  have hx := x.toInt_lt
  have hx' := x.le_toInt
  have hy := y.toInt_lt
  have hy' := y.le_toInt
  rw [BitVec.toInt_sub]
  unfold Comparable
  simp only [Int.bmod_def]
  omega

theorem sub_pos_iff : (0 < (x - y).toInt ↔ y.toInt < x.toInt) ↔ Comparable x y := by
  rcases toInt_sub_cases x y with ⟨hc, h⟩ | ⟨hc, h⟩ | ⟨hc, h⟩
  · exact iff_of_true (by omega) hc
  · exact iff_of_false (by omega) hc
  · exact iff_of_false (by omega) hc

theorem sub_neg_iff : ((x - y).toInt < 0 ↔ x.toInt < y.toInt) ↔ Comparable x y := by
  rcases toInt_sub_cases x y with ⟨hc, h⟩ | ⟨hc, h⟩ | ⟨hc, h⟩
  · exact iff_of_true (by omega) hc
  · exact iff_of_false (by omega) hc
  · exact iff_of_false (by omega) hc

theorem truth_inj {a b : Bool} : Arithmetic.truth a = Arithmetic.truth b ↔ a = b := by
  cases a <;> cases b <;> decide

/-! ## Lowered comparisons -/

variable {operator : Operator} {f : Word → Word → Word}

/-- A comparison tests its condition on the difference of its operands. The outcome is right if
they are equal or not as it asks, and for an order exactly if they are comparable. -/
theorem exists_outcome (hi : (Instruction.operate operator).isComparison)
    (hf : Arithmetic.words.binary? operator = some f) (c : Context) (x y : Word) :
    ∃ condition outcome, Site.condition? ⟨c, .operate operator⟩ = some condition ∧
      lowerOperator c operator = compareTop c.stem c.comparisons condition ∧
      condition.holds? (x - y) = some outcome ∧
      (Arithmetic.truth outcome = f x y ↔ operator = .eq ∨ Comparable x y) := by
  cases operator with
  | eq =>
    obtain rfl := Option.some.inj hf
    have hzero : x - y = 0 ↔ x = y := by bv_omega
    refine ⟨.equal, _, rfl, rfl, rfl, iff_of_true ?_ (.inl rfl)⟩
    simp only [Arithmetic.words, hzero]
  | gt =>
    obtain rfl := Option.some.inj hf
    refine ⟨.greater, _, rfl, rfl, rfl, ?_⟩
    simp only [Arithmetic.words, truth_inj, BitVec.slt, decide_eq_decide, sub_pos_iff, reduceCtorEq,
      false_or]
  | lt =>
    obtain rfl := Option.some.inj hf
    refine ⟨.less, _, rfl, rfl, rfl, ?_⟩
    simp only [Arithmetic.words, truth_inj, BitVec.slt, decide_eq_decide, sub_neg_iff, reduceCtorEq,
      false_or]
  | _ => cases hi

/-- **A comparison is right exactly if its operands are comparable**, or if it asks whether they
are equal. Whatever labels it has, as long as the program defines them nowhere else, it goes on
behind its lines with one operand less on the stack, and it changes no other cell. -/
theorem run_lowerComparison (hi : (Instruction.operate operator).isComparison)
    (hf : Arithmetic.words.binary? operator = some f)
    (hp : p.Holds σ.pc (lowerOperator c operator))
    (hlabels : ∀ l ∈ Site.comparisonLabels ⟨c, .operate operator⟩, p.lines.count (.label l) = 1)
    (hsp : 258 ≤ (σ.ram SP).toNat) :
    ∃ σ' outcome, p.Reaches σ σ' ∧ σ'.pc = σ.pc + size (lowerOperator c operator) ∧
      σ'.ram = compared σ.ram outcome ∧
      (Arithmetic.truth outcome = f (σ.ram (σ.ram SP - 2)) (σ.ram (σ.ram SP - 1)) ↔
        operator = .eq ∨ Comparable (σ.ram (σ.ram SP - 2)) (σ.ram (σ.ram SP - 1))) := by
  obtain ⟨condition, outcome, hcondition, hlines, houtcome, hright⟩ :=
    exists_outcome hi hf c (σ.ram (σ.ram SP - 2)) (σ.ram (σ.ram SP - 1))
  have hdefined {branch : String} (hb : comparisonLabel c.stem c.comparisons condition branch ∈
      Site.comparisonLabels ⟨c, .operate operator⟩) :
      p.DefinesOnce (comparisonLabel c.stem c.comparisons condition branch) :=
    ⟨lookup_comparisonLabel _ _ _ _, hlabels _ hb⟩
  have hnames : Site.comparisonLabels ⟨c, .operate operator⟩ =
      [comparisonLabel c.stem c.comparisons condition "TRUE",
        comparisonLabel c.stem c.comparisons condition "END"] := by
    rw [Site.comparisonLabels, hcondition]
  rw [hnames] at hdefined
  rw [hlines] at hp ⊢
  obtain ⟨σ', hreach, hpc, hram⟩ := run_compareTop hp (hdefined (by simp)) (hdefined (by simp)) hsp
    houtcome
  exact ⟨σ', outcome, hreach, hpc, hram, hright⟩

/-- A processor at the start of its program, with two operands on the stack. -/
def withOperands (x y : Word) : Cpu :=
  ⟨0, 0, fun a => if a = SP then 258 else if a = 256 then x else if a = 257 then y else 0, 0⟩

/-- A negative number is less than a positive one if they are not too far from each other. -/
theorem run_lowerComparison_signed :
    ∃ (p : Assembled) (σ : Cpu), p.lines = lowerOperator { stem := "Main", comparisons := 3 } .lt ∧
      Comparable (-5) 7 ∧ p.Reaches (withOperands (-5) 7) σ ∧ σ.pc = size p.lines ∧
      σ.ram SP = 257 ∧ σ.ram 256 = -1 := by
  obtain ⟨p, hp⟩ : ∃ p : Assembled,
      p.lines = lowerOperator { stem := "Main", comparisons := 3 } .lt := ⟨⟨_, by decide⟩, rfl⟩
  have hcomparable : Comparable (-5) 7 := by decide
  have hholds : p.Holds (withOperands (-5) 7).pc
      (lowerOperator { stem := "Main", comparisons := 3 } .lt) := hp ▸ Holds.self p
  obtain ⟨σ, outcome, hreach, hpc, hram, hright⟩ :=
    run_lowerComparison rfl rfl hholds (by rw [hp]; decide) (by decide)
  refine ⟨p, σ, hp, hcomparable, hreach, ?_, ?_, ?_⟩
  · rw [hpc, hp]
    exact Nat.zero_add _
  · rw [hram, compared, Function.update_self]
    decide
  · have htrue : Arithmetic.truth outcome = -1 := hright.2 (.inr hcomparable)
    rw [hram, compared, htrue]
    decide

/-- **A comparison can be wrong**: the difference of the least word and 1 is the greatest word, and
so the least word counts as greater than 1. The processor stops there. -/
theorem wrapped_comparison :
    ∃ (p : Assembled) (σ : Cpu), p.lines = lowerOperator { stem := "Main" } .gt ∧
      (-32768 : Word).toInt < (1 : Word).toInt ∧ ¬ Comparable (-32768) 1 ∧
      p.Reaches (withOperands (-32768) 1) σ ∧ σ.pc = size p.lines ∧ p.step σ = none ∧
      σ.ram SP = 257 ∧ σ.ram 256 = -1 := by
  obtain ⟨p, hp⟩ : ∃ p : Assembled, p.lines = lowerOperator { stem := "Main" } .gt :=
    ⟨⟨_, by decide⟩, rfl⟩
  have hlines : p.lines = compareTop "Main" 0 .greater := hp
  have hwrapped : Condition.greater.holds? (-32768 - 1) = some true := by decide
  have hholds : p.Holds (withOperands (-32768) 1).pc (compareTop "Main" 0 .greater) :=
    hlines ▸ Holds.self p
  obtain ⟨σ, hreach, hpc, hram⟩ := run_compareTop hholds ⟨by decide, by rw [hp]; decide⟩
    ⟨by decide, by rw [hp]; decide⟩ (by decide) hwrapped
  have hstop : σ.pc = size p.lines := by
    rw [hpc, hlines]
    exact Nat.zero_add _
  refine ⟨p, σ, hp, by decide, by decide, hreach, hstop, ?_, ?_, ?_⟩
  · rw [Assembled.step, hstop, size, List.getElem?_eq_none (Nat.le_refl _)]
  · rw [hram, compared, Function.update_self]
    decide
  · rw [hram]
    decide

end JackToolchain.Hack
