import JackToolchain.CommandLine.Settings
import JackToolchain.Proofs.Outcome
import Mathlib.Data.Nat.Bitwise

/-!
# The output setting

All settings are flags in one number, and the parameters of any token may select flags. A selector
replaces the flag that the token itself stands for.

* `selectedFlags_of_not_isSelector`, `selectedFlags_and_output`: which flags parameters select.
* `Settings.setAll`: the settings behind some tokens.
* `exists_set`: what one token does to the output setting.
* `output?_setAll`: **the output setting is the parameter of the last token for it, unless that is a
  selector**.
* `output_not_set`: an output named like a selector is ignored.
-/

namespace JackToolchain.CommandLine

/-! ## Flags -/

/-- The flag that a parameter selects, or 0. -/
def selectedFlag (parameter : String) : Nat :=
  ((Setting.ofSelector? parameter).map Setting.bit).getD 0

/-- Whether a parameter selects a flag. -/
def IsSelector (parameter : String) : Prop :=
  parameter ∈ ["all", "tokens", "symbols", "program"]

instance (parameter : String) : Decidable (IsSelector parameter) :=
  inferInstanceAs (Decidable (_ ∈ _))

theorem selectedFlag_of_not_isSelector {parameter : String} (h : ¬IsSelector parameter) :
    selectedFlag parameter = 0 := by
  unfold IsSelector at h
  unfold selectedFlag Setting.ofSelector?
  split <;> simp at h ⊢

theorem selectedFlag_of_isSelector {parameter : String} (h : IsSelector parameter) :
    selectedFlag parameter ≠ 0 ∧ selectedFlag parameter &&& Setting.output.bit = 0 := by
  unfold IsSelector at h
  simp only [List.mem_cons, List.not_mem_nil, or_false] at h
  rcases h with rfl | rfl | rfl | rfl <;> decide

/-- A number shares no flag with the flags of some parameters exactly if it shares none with any of
them. -/
theorem and_foldl_eq_zero_iff (mask : Nat) (parameters : List String) (flags : Nat) :
    parameters.foldl (fun flags s => flags ||| selectedFlag s) flags &&& mask = 0 ↔
      flags &&& mask = 0 ∧ ∀ s ∈ parameters, selectedFlag s &&& mask = 0 := by
  induction parameters generalizing flags with
  | nil => simp
  | cons s parameters ih =>
    rw [List.foldl_cons, ih, Nat.and_or_distrib_right, Nat.or_eq_zero_iff, List.forall_mem_cons,
      and_assoc]

/-- Without a selector the flags are the given ones. -/
theorem selectedFlags_of_not_isSelector {parameters : List String}
    (h : ∀ s ∈ parameters, ¬IsSelector s) (fallback : Nat) :
    selectedFlags parameters fallback = fallback := by
  have hnone : parameters.foldl (fun flags s => flags ||| selectedFlag s) 0 = 0 := by
    rw [← Nat.and_self (parameters.foldl (fun flags s => flags ||| selectedFlag s) 0),
      and_foldl_eq_zero_iff]
    refine ⟨Nat.zero_and _, fun s hs => ?_⟩
    rw [selectedFlag_of_not_isSelector (h s hs), Nat.zero_and]
  exact if_pos hnone

/-- With a selector the flag for output is not among the flags. -/
theorem selectedFlags_and_output {parameters : List String} (h : ∃ s ∈ parameters, IsSelector s)
    (fallback : Nat) : selectedFlags parameters fallback &&& Setting.output.bit = 0 := by
  obtain ⟨s, hs, hselector⟩ := h
  have hsome : parameters.foldl (fun flags s => flags ||| selectedFlag s) 0 ≠ 0 := by
    intro hnone
    have hand := (and_foldl_eq_zero_iff (selectedFlag s) parameters 0).1
      (by rw [hnone, Nat.zero_and])
    have hself := hand.2 s hs
    rw [Nat.and_self] at hself
    exact (selectedFlag_of_isSelector hselector).1 hself
  have hflags : selectedFlags parameters fallback =
      parameters.foldl (fun flags s => flags ||| selectedFlag s) 0 := if_neg hsome
  rw [hflags, and_foldl_eq_zero_iff]
  refine ⟨Nat.zero_and _, fun s _ => ?_⟩
  by_cases hs : IsSelector s
  · exact (selectedFlag_of_isSelector hs).2
  · rw [selectedFlag_of_not_isSelector hs, Nat.zero_and]

/-! ## The output setting -/

/-- The path that the parameters of a token for output set: the first of them, if none is a
selector. -/
def outputOf (parameters : List String) : Option String :=
  if ∃ s ∈ parameters, IsSelector s then none else parameters.head?

namespace Settings

variable {s : Settings} {purpose : Purpose}

theorem get_output (s : Settings) : s.get .output =
    if s.output.flags &&& Setting.output.bit = 0 then .error .notSet
    else .ok s.output.parameters :=
  rfl

theorem output?_of_unset (h : s.output = {}) : s.output? = none := by
  rw [output?, get_output, h]
  rfl

/-- The output setting is read off what is stored for output. -/
theorem output?_of_choice {parameters : List String}
    (h : s.output = choiceOf .output parameters) : s.output? = outputOf parameters := by
  rw [output?, get_output, h, outputOf]
  by_cases hselector : ∃ s ∈ parameters, IsSelector s
  · have hflags : (choiceOf .output parameters).flags &&& Setting.output.bit = 0 :=
      selectedFlags_and_output hselector _
    rw [if_pos hselector, if_pos hflags]
  · have hnone : ∀ s ∈ parameters, ¬IsSelector s := by simpa using hselector
    have hflags : (choiceOf .output parameters).flags = Setting.output.bit :=
      selectedFlags_of_not_isSelector hnone _
    rw [if_neg hselector, hflags, Nat.and_self, if_neg (by decide)]
    cases parameters <;> rfl

/-- Whether something is stored for a purpose. -/
def IsStored (purpose : Purpose) : Prop :=
  purpose ∈ [.debug, .output, .noInit, .annotate]

/-- A token for output replaces what was stored for it, and another token leaves that alone. -/
theorem exists_set (s : Settings) (hpurpose : IsStored purpose)
    (parameters : Option (List String)) :
    ∃ s', s.set purpose parameters = .ok s' ∧
      s'.output = if purpose = .output then choiceOf .output (parameters.getD []) else s.output := by
  unfold IsStored at hpurpose
  simp only [List.mem_cons, List.not_mem_nil, or_false] at hpurpose
  rcases hpurpose with rfl | rfl | rfl | rfl <;> exact ⟨_, rfl, rfl⟩

/-- The settings behind some tokens. -/
def setAll (s : Settings) (tokens : List Token) : Except Fault Settings :=
  tokens.foldlM (fun s t => s.set t.purpose t.parameters) s

theorem setAll_cons (s : Settings) (t : Token) (tokens : List Token) :
    s.setAll (t :: tokens) = s.set t.purpose t.parameters >>= (setAll · tokens) :=
  List.foldlM_cons

theorem setAll_append (s : Settings) (tokens others : List Token) :
    s.setAll (tokens ++ others) = s.setAll tokens >>= (setAll · others) :=
  List.foldlM_append

/-- All tokens are stored, and what is stored for output is changed by those for output only. -/
theorem exists_setAll (s : Settings) {tokens : List Token}
    (htokens : ∀ t ∈ tokens, IsStored t.purpose) :
    ∃ s', s.setAll tokens = .ok s' ∧
      ((∀ t ∈ tokens, t.purpose ≠ .output) → s'.output = s.output) := by
  induction tokens generalizing s with
  | nil => exact ⟨s, rfl, fun _ => rfl⟩
  | cons t tokens ih =>
    obtain ⟨ht, htokens⟩ := List.forall_mem_cons.1 htokens
    obtain ⟨s₁, hset, houtput⟩ := s.exists_set ht t.parameters
    obtain ⟨s', hall, hothers⟩ := ih s₁ htokens
    refine ⟨s', ?_, fun hnone => ?_⟩
    · rw [setAll_cons, hset]
      exact hall
    · obtain ⟨hother, hnone⟩ := List.forall_mem_cons.1 hnone
      rw [hothers hnone, houtput, if_neg hother]

/-- **The output setting is the parameter of the last token for it, unless that is a selector.** No
other token has any influence on it. -/
theorem output?_setAll {tokens : List Token} (htokens : ∀ t ∈ tokens, IsStored t.purpose) :
    ∃ s, setAll {} tokens = .ok s ∧
      ((∀ t ∈ tokens, t.purpose ≠ .output) → s.output? = none) ∧
      ∀ before t after, tokens = before ++ t :: after → t.purpose = .output →
        (∀ u ∈ after, u.purpose ≠ .output) →
        s.output? = outputOf (t.parameters.getD []) ∧
        ∀ p, t.parameters = some [p] →
          (IsSelector p → s.output? = none) ∧ (¬IsSelector p → s.output? = some p) := by
  obtain ⟨s, hs, hnone⟩ := exists_setAll {} htokens
  refine ⟨s, hs, fun h => ?_, fun before t after htokens' ht hafter => ?_⟩
  · have hstart : s.output = {} := hnone h
    exact output?_of_unset hstart
  · subst htokens'
    rw [List.forall_mem_append, List.forall_mem_cons] at htokens
    obtain ⟨hbefore, hstored, hlater⟩ := htokens
    -- the settings on the way: before the token, behind it, and at the end
    obtain ⟨s₁, hs₁, -⟩ := exists_setAll {} hbefore
    obtain ⟨s₂, hs₂, houtput⟩ := s₁.exists_set hstored t.parameters
    obtain ⟨s₃, hs₃, hkept⟩ := s₂.exists_setAll hlater
    have hend : s = s₃ := by
      rw [setAll_append, hs₁] at hs
      have hs' : s₁.setAll (t :: after) = .ok s := hs
      rw [setAll_cons, hs₂] at hs'
      exact Except.ok.inj (hs'.symm.trans hs₃)
    rw [if_pos ht] at houtput
    have hvalue : s.output? = outputOf (t.parameters.getD []) := by
      rw [hend]
      exact output?_of_choice ((hkept hafter).trans houtput)
    refine ⟨hvalue, fun p hp => ?_⟩
    rw [hvalue, hp]
    simp only [outputOf, Option.getD_some, List.mem_singleton, exists_eq_left]
    exact ⟨fun h => if_pos h, fun h => if_neg h⟩

/-- The last of two outputs counts, whatever else is set. -/
theorem output?_setAll_last :
    ∃ s, setAll {} [⟨.setting, .output, some ["all"]⟩, ⟨.setting, .debug, some ["tokens"]⟩,
        ⟨.setting, .output, some ["out"]⟩, ⟨.setting, .annotate, some []⟩] = .ok s ∧
      s.output? = some "out" := by
  have hstored : ∀ t ∈ [(⟨.setting, .output, some ["all"]⟩ : Token),
      ⟨.setting, .debug, some ["tokens"]⟩, ⟨.setting, .output, some ["out"]⟩,
      ⟨.setting, .annotate, some []⟩], IsStored t.purpose := by
    simp [IsStored]
  obtain ⟨s, hs, -, hlast⟩ := output?_setAll hstored
  have hout := hlast [⟨.setting, .output, some ["all"]⟩, ⟨.setting, .debug, some ["tokens"]⟩]
    ⟨.setting, .output, some ["out"]⟩ [⟨.setting, .annotate, some []⟩] rfl rfl (by simp)
  exact ⟨s, hs, (hout.2 "out" rfl).2 (by decide)⟩

/-- An output directory called `tokens` is not used: the name selects what is printed. -/
theorem output_not_set :
    ∃ s, setAll {} [⟨.setting, .output, some ["tokens"]⟩] = .ok s ∧
      s.output? ≠ some "tokens" ∧ s.output? = none :=
  ⟨_, rfl, by decide, by decide⟩

end Settings

end JackToolchain.CommandLine
