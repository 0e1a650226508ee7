import JackToolchain.CommandLine.Parser
import JackToolchain.Proofs.Outcome
import Mathlib.Data.List.Chain
import Mathlib.Logic.Basic

/-!
# What a command line says

A command line falls into groups: an argument that names flags, with the arguments behind it up to
the next such one. A group gives a token for each rule that it names, and its parameters go to the
first of them.

* `groups`: the groups of a command line.
* `Parser.meant`: the tokens that a command line stands for.
* `Parser.Accepts`: when a command line fits the rules of a parser.
* `tokensOf_eq_ok_iff`: a command line that fits gives the tokens that it stands for, and no other
  gives any.
* `flatMap_given_meant`: no argument gets lost.
* `load_all_or_nothing`: **a parser takes over all of a command line or nothing of it**.
-/

namespace JackToolchain.CommandLine

variable {α : Type}

/-! ## Groups -/

/-- An argument that names flags, with the arguments behind it up to the next such one. -/
structure Group where
  flag : String
  parameters : List String

/-- The groups of a command line. What stands before its first flag is in none of them. -/
def groups : List String → List Group
  | [] => []
  | a :: rest =>
    if isFlag a then ⟨a, rest.takeWhile (!isFlag ·)⟩ :: groups rest else groups rest

theorem groups_cons_of_isFlag {a : String} (ha : isFlag a = true) (rest : List String) :
    groups (a :: rest) = ⟨a, rest.takeWhile (!isFlag ·)⟩ :: groups rest :=
  if_pos ha

/-- Parameters give no groups of their own. -/
theorem groups_dropWhile (arguments : List String) :
    groups (arguments.dropWhile (!isFlag ·)) = groups arguments := by
  induction arguments with
  | nil => rfl
  | cons a rest ih =>
    by_cases ha : isFlag a = true
    · rw [List.dropWhile_cons_of_neg (by simp [ha])]
    · rw [List.dropWhile_cons_of_pos (by simp [ha]), ih, groups, if_neg ha]

/-- A command line starts with a dash alone, or with another argument and the parameters behind
it. -/
@[elab_as_elim]
theorem groupInduction {motive : List String → Prop} (nil : motive [])
    (dash : ∀ rest, motive rest → motive ("-" :: rest))
    (flag : ∀ a rest, a ≠ "-" → motive (rest.dropWhile (!isFlag ·)) → motive (a :: rest))
    (arguments : List String) : motive arguments := by
  induction hn : arguments.length using Nat.strong_induction_on generalizing arguments with
  | _ n ih =>
    subst hn
    cases arguments with
    | nil => exact nil
    | cons a rest =>
      by_cases ha : a = "-"
      · subst ha
        exact dash rest (ih _ (by simp) rest rfl)
      · have hlonger : (rest.dropWhile (!isFlag ·)).length < (a :: rest).length := by
          have hsuffix := (List.dropWhile_suffix (!isFlag ·) (l := rest)).length_le
          rw [List.length_cons]
          omega
        exact flag a rest ha (ih _ hlonger _ rfl)

/-! ## Tokens -/

/-- Whether a rule takes some number of parameters. -/
def Rule.Takes (r : Rule α) (n : Nat) : Prop :=
  r.least ≤ n ∧ ∀ most ∈ r.most, n ≤ most

/-- The token of a rule with some parameters, however many they are. -/
def Rule.tokenWith (r : Rule α) (parameters : List String) : Token :=
  ⟨r.stage, r.purpose, some parameters⟩

/-- The parameters given to a token. -/
def Token.given (t : Token) : List String :=
  t.parameters.getD []

theorem token_eq_ok_iff {r : Rule α} {argument : String} {parameters : List String} {t : Token} :
    r.token argument parameters = .ok t ↔
      r.Takes parameters.length ∧ t = r.tokenWith parameters := by
  have hmost : r.most.any (· < parameters.length) = true ↔
      ¬∀ most ∈ r.most, parameters.length ≤ most := by
    cases r.most <;> simp
  unfold Rule.token Rule.Takes
  by_cases hleast : parameters.length < r.least
  · simp only [hleast, if_true]
    constructor
    · rintro ⟨⟩
    · rintro ⟨⟨h, -⟩, -⟩
      omega
  · simp only [hleast, if_false, hmost]
    have hle : r.least ≤ parameters.length := by omega
    split
    · next hfew =>
      constructor
      · rintro ⟨⟩
      · rintro ⟨⟨-, h⟩, -⟩
        exact absurd h hfew
    · next hfits =>
      rw [not_not] at hfits
      rw [Except.ok.injEq, eq_comm, and_iff_right ⟨hle, hfits⟩]
      rfl

/-- The tokens of a cluster are without parameters. -/
theorem mapM_token_eq_ok_iff {rules : List (Rule α)} {argument : String} {tokens : List Token} :
    rules.mapM (·.token argument []) = .ok tokens ↔
      (∀ r ∈ rules, r.Takes 0) ∧ tokens = rules.map (·.tokenWith []) := by
  rw [mapM_eq_ok_iff]
  simp only [token_eq_ok_iff, exists_and_left, exists_eq, and_true, List.length_nil]
  refine and_congr_right fun htakes => ?_
  have hoption (r : Rule α) (hr : r ∈ rules) :
      (r.token argument []).toOption = some (r.tokenWith []) :=
    toOption_eq_some_iff.2 (token_eq_ok_iff.2 ⟨htakes r hr, rfl⟩)
  rw [List.filterMap_congr hoption, ← List.filterMap_eq_map]
  rfl

/-- Gives the parameters of a group to the first of its rules. -/
def share (parameters : List String) : List (Rule α) → List (Rule α × List String)
  | [] => []
  | first :: cluster => (first, parameters) :: cluster.map (·, [])

namespace Parser

/-- The rules that an argument names: the first of each name. Names without a rule are left out. -/
def named (p : Parser α) (argument : String) : List (Rule α) :=
  match argument.toList with
  | '-' :: '-' :: name => (p.rules.find? (·.long = String.ofList name)).toList
  | '-' :: flags => flags.filterMap fun flag => p.rules.find? (·.flag = flag)
  | _ => []

/-- The rules that a command line names, in order, with the parameters that each of them gets. -/
def shares (p : Parser α) (arguments : List String) : List (Rule α × List String) :=
  (groups arguments).flatMap fun g => share g.parameters (p.named g.flag)

/-- The tokens that a command line stands for. -/
def meant (p : Parser α) (arguments : List String) : List Token :=
  (p.shares arguments).map fun (r, parameters) => r.tokenWith parameters

/-- Whether there is a rule for all that an argument names. -/
structure Knows (p : Parser α) (argument : String) : Prop where
  long : ∀ name, argument = "--" ++ name → ∃ r ∈ p.rules, r.long = name
  short : ∀ flags, argument = "-" ++ flags → flags.toList.head? ≠ some '-' →
    ∀ flag ∈ flags.toList, ∃ r ∈ p.rules, r.flag = flag

/-- When a command line fits the rules of a parser. -/
structure Accepts (p : Parser α) (arguments : List String) : Prop where
  /-- It starts with a flag. -/
  start : ∀ a ∈ arguments.head?, isFlag a = true
  /-- All flags have rules. -/
  known : ∀ a ∈ arguments, p.Knows a
  /-- A dash alone has no parameters. -/
  bare : arguments.IsChain fun a b => a = "-" → isFlag b = true
  /-- All rules take what they get. -/
  taken : ∀ s ∈ p.shares arguments, s.1.Takes s.2.length

variable {p : Parser α} {a : String} {arguments : List String}

/-! ## Names -/

theorem ruleNamed_eq_ok_iff {name : String} {r : Rule α} :
    p.ruleNamed name = .ok r ↔ p.rules.find? (·.long = name) = some r := by
  unfold ruleNamed
  cases p.rules.find? (·.long = name) <;> simp

theorem ruleOf_eq_ok_iff {flag : Char} {r : Rule α} :
    p.ruleOf flag = .ok r ↔ p.rules.find? (·.flag = flag) = some r := by
  unfold ruleOf
  cases p.rules.find? (·.flag = flag) <;> simp

/-- A cluster names one rule for each of its characters. -/
theorem mapM_ruleOf_eq_ok_iff {flags : List Char} {rules : List (Rule α)} :
    flags.mapM p.ruleOf = .ok rules ↔ (∀ flag ∈ flags, ∃ r ∈ p.rules, r.flag = flag) ∧
      rules = flags.filterMap fun flag => p.rules.find? (·.flag = flag) := by
  have hoption (flag : Char) :
      (p.ruleOf flag).toOption = p.rules.find? (·.flag = flag) := by
    unfold ruleOf
    cases p.rules.find? (·.flag = flag) <;> rfl
  rw [mapM_eq_ok_iff]
  simp only [hoption, ruleOf_eq_ok_iff, exists_find?_iff]

/-- An argument names one rule, or one for each of its characters, or it is no flag. -/
theorem argument_cases (a : String) :
    (∃ name : String, a = "--" ++ name) ∨
      (∃ flags : String, a = "-" ++ flags ∧ flags.toList.head? ≠ some '-') ∨ isFlag a = false := by
  cases hdash : isFlag a with
  | false => exact .inr (.inr rfl)
  | true =>
    simp only [isFlag, beq_iff_eq] at hdash
    obtain ⟨flags, hflags⟩ := List.head?_eq_some_iff.1 hdash
    by_cases hhead : flags.head? = some '-'
    · obtain ⟨name, rfl⟩ := List.head?_eq_some_iff.1 hhead
      refine .inl ⟨String.ofList name, ?_⟩
      rw [← String.toList_inj, hflags, String.toList_append, String.toList_ofList]
      simp
    · refine .inr (.inl ⟨String.ofList flags, ?_, by rwa [String.toList_ofList]⟩)
      rw [← String.toList_inj, hflags, String.toList_append, String.toList_ofList]
      simp

section long

variable (name : String)

theorem toList_long : ("--" ++ name).toList = '-' :: '-' :: name.toList := by
  simp [String.toList_append]

theorem isFlag_long : isFlag ("--" ++ name) = true := by
  simp [isFlag]

theorem named_long : p.named ("--" ++ name) = (p.rules.find? (·.long = name)).toList := by
  simp [named]

theorem rulesFor_long :
    p.rulesFor ("--" ++ name) = (do return [← p.ruleNamed name]) := by
  simp [rulesFor]

theorem knows_long_iff : p.Knows ("--" ++ name) ↔ ∃ r ∈ p.rules, r.long = name := by
  constructor
  · intro h
    exact h.long name rfl
  · intro h
    constructor
    · intro name' heq
      rwa [← (String.append_right_inj "--").1 heq]
    · intro flags heq hflags
      have hdash : flags.toList = '-' :: name.toList := by
        have hlist := congrArg String.toList heq
        rw [toList_long, String.toList_append] at hlist
        exact (List.cons.inj hlist).2.symm
      rw [hdash] at hflags
      exact absurd rfl hflags

end long

section short

variable {flags : String}

theorem toList_short (flags : String) : ("-" ++ flags).toList = '-' :: flags.toList := by
  simp [String.toList_append]

theorem isFlag_short (flags : String) : isFlag ("-" ++ flags) = true := by
  simp [isFlag]

theorem named_short (hflags : flags.toList.head? ≠ some '-') : p.named ("-" ++ flags) =
    flags.toList.filterMap fun flag => p.rules.find? (·.flag = flag) := by
  unfold named
  rw [toList_short]
  split
  · next heq =>
    rw [(List.cons.inj heq).2] at hflags
    exact absurd rfl hflags
  · next heq => rw [(List.cons.inj heq).2]
  · next heq => exact absurd rfl (heq _)

theorem rulesFor_short (hflags : flags.toList.head? ≠ some '-') :
    p.rulesFor ("-" ++ flags) = flags.toList.mapM p.ruleOf := by
  unfold rulesFor
  rw [toList_short]
  split
  · next heq =>
    rw [(List.cons.inj heq).2] at hflags
    exact absurd rfl hflags
  · next heq => rw [(List.cons.inj heq).2]
  · next heq => exact absurd rfl (heq _)

theorem knows_short_iff (hflags : flags.toList.head? ≠ some '-') :
    p.Knows ("-" ++ flags) ↔ ∀ flag ∈ flags.toList, ∃ r ∈ p.rules, r.flag = flag := by
  constructor
  · intro h
    exact h.short flags rfl hflags
  · intro h
    constructor
    · intro name heq
      have hlist := congrArg String.toList heq
      rw [toList_long, toList_short] at hlist
      rw [(List.cons.inj hlist).2] at hflags
      exact absurd rfl hflags
    · intro flags' heq _
      rwa [← (String.append_right_inj "-").1 heq]

end short

/-- What is no flag names nothing. -/
theorem knows_of_not_isFlag (ha : isFlag a = false) : p.Knows a := by
  constructor
  · rintro name rfl
    rw [isFlag_long] at ha
    cases ha
  · rintro flags rfl
    rw [isFlag_short] at ha
    cases ha

theorem rulesFor_of_not_isFlag (ha : isFlag a = false) :
    p.rulesFor a = .error (.unexpectedArgument a) := by
  unfold rulesFor
  split
  · next heq => simp [isFlag, heq] at ha
  · next heq => simp [isFlag, heq] at ha
  · rfl

/-- The rules of an argument are found exactly if it is a flag and there is a rule for all that it
names. -/
theorem rulesFor_eq_ok_iff {rules : List (Rule α)} :
    p.rulesFor a = .ok rules ↔ isFlag a = true ∧ p.Knows a ∧ rules = p.named a := by
  rcases argument_cases a with ⟨name, rfl⟩ | ⟨flags, rfl, hflags⟩ | ha
  · rw [rulesFor_long, knows_long_iff, isFlag_long, named_long, and_iff_right rfl, bind_eq_ok_iff,
      ← exists_find?_iff]
    constructor
    · rintro ⟨r, hr, h⟩
      rw [ruleNamed_eq_ok_iff] at hr
      cases h
      exact ⟨⟨r, hr⟩, by rw [hr]; rfl⟩
    · rintro ⟨⟨r, hr⟩, rfl⟩
      exact ⟨r, ruleNamed_eq_ok_iff.2 hr, by rw [hr]; rfl⟩
  · rw [rulesFor_short hflags, knows_short_iff hflags, isFlag_short, named_short hflags,
      and_iff_right rfl, mapM_ruleOf_eq_ok_iff]
  · rw [rulesFor_of_not_isFlag ha]
    constructor
    · rintro ⟨⟩
    · rintro ⟨hflag, -⟩
      rw [ha] at hflag
      cases hflag

/-- A flag that names no rule is a dash alone, if there are rules for all flags. -/
theorem named_eq_nil_iff (ha : isFlag a = true) (hknown : p.Knows a) :
    p.named a = [] ↔ a = "-" := by
  rcases argument_cases a with ⟨name, rfl⟩ | ⟨flags, rfl, hflags⟩ | hno
  · obtain ⟨r, hr⟩ := exists_find?_iff.2 ((knows_long_iff name).1 hknown)
    rw [named_long, hr]
    constructor
    · rintro ⟨⟩
    · intro h
      have hlist := congrArg String.toList h
      rw [toList_long] at hlist
      cases hlist
  · rw [named_short hflags, List.filterMap_eq_nil_iff]
    constructor
    · intro hnone
      have hnil : flags.toList = [] := by
        rw [List.eq_nil_iff_forall_not_mem]
        intro flag hflag
        obtain ⟨r, hr⟩ := exists_find?_iff.2 ((knows_short_iff hflags).1 hknown flag hflag)
        rw [hnone flag hflag] at hr
        cases hr
      rw [String.toList_eq_nil_iff] at hnil
      rw [hnil]
      rfl
    · intro h flag hflag
      have hlist := congrArg String.toList h
      rw [toList_short] at hlist
      rw [(List.cons.inj hlist).2] at hflag
      cases hflag
  · rw [ha] at hno
    cases hno

/-! ## Command lines -/

theorem shares_dropWhile (p : Parser α) (arguments : List String) :
    p.shares (arguments.dropWhile (!isFlag ·)) = p.shares arguments := by
  rw [shares, groups_dropWhile, shares]

theorem shares_cons (ha : isFlag a = true) (rest : List String) :
    p.shares (a :: rest) = share (rest.takeWhile (!isFlag ·)) (p.named a) ++ p.shares rest := by
  rw [shares, groups_cons_of_isFlag ha, List.flatMap_cons, shares]

theorem head?_empty : "".toList.head? ≠ some '-' := by
  simp

theorem isFlag_dash : isFlag "-" = true :=
  isFlag_short ""

theorem knows_dash (p : Parser α) : p.Knows "-" :=
  (knows_short_iff head?_empty).2 (by simp)

theorem named_dash (p : Parser α) : p.named "-" = [] :=
  named_short head?_empty

theorem shares_dash (rest : List String) : p.shares ("-" :: rest) = p.shares rest := by
  rw [shares_cons isFlag_dash, named_dash]
  rfl

/-- Parameters of a flag have no influence on where a dash stands alone. -/
theorem bare_dropWhile (ha : a ≠ "-") (rest : List String) :
    (a :: rest).IsChain (fun a b => a = "-" → isFlag b = true) ↔
      (rest.dropWhile (!isFlag ·)).IsChain fun a b => a = "-" → isFlag b = true := by
  induction rest generalizing a with
  | nil => simp
  | cons b rest ih =>
    rw [List.isChain_cons_cons, and_iff_right fun h => absurd h ha]
    by_cases hb : isFlag b = true
    · rw [List.dropWhile_cons_of_neg (by simp [hb])]
    · rw [List.dropWhile_cons_of_pos (by simp [hb])]
      refine ih ?_
      rintro rfl
      exact hb isFlag_dash

theorem forall_knows_dropWhile (p : Parser α) (arguments : List String) :
    (∀ a ∈ arguments.dropWhile (!isFlag ·), p.Knows a) ↔ ∀ a ∈ arguments, p.Knows a := by
  induction arguments with
  | nil => rfl
  | cons a rest ih =>
    by_cases ha : isFlag a = true
    · rw [List.dropWhile_cons_of_neg (by simp [ha])]
    · rw [List.dropWhile_cons_of_pos (by simp [ha]), ih, List.forall_mem_cons,
        and_iff_right (knows_of_not_isFlag (by simpa using ha))]

theorem isFlag_of_head?_dropWhile (arguments : List String) :
    ∀ a ∈ (arguments.dropWhile (!isFlag ·)).head?, isFlag a = true := by
  intro a ha
  have hnot := List.head?_dropWhile_not (!isFlag ·) arguments
  rw [Option.mem_def.1 ha] at hnot
  simpa using hnot

theorem accepts_nil (p : Parser α) : p.Accepts [] :=
  ⟨nofun, nofun, .nil, nofun⟩

/-- A dash alone has nothing to do with what follows, which starts with a flag. -/
theorem accepts_dash_iff (rest : List String) : p.Accepts ("-" :: rest) ↔ p.Accepts rest := by
  constructor
  · intro h
    refine ⟨fun a ha => ?_, fun a ha => h.known a (List.mem_cons_of_mem _ ha), h.bare.tail, ?_⟩
    · cases rest with
      | nil => cases ha
      | cons b rest =>
        cases ha
        exact (List.isChain_cons_cons.1 h.bare).1 rfl
    · rw [← shares_dash]
      exact h.taken
  · intro h
    refine ⟨fun a ha => ?_, List.forall_mem_cons.2 ⟨p.knows_dash, h.known⟩, ?_, ?_⟩
    · cases ha
      exact isFlag_dash
    · cases rest with
      | nil => exact .singleton _
      | cons b rest => exact List.isChain_cons_cons.2 ⟨fun _ => h.start b rfl, h.bare⟩
    · rw [shares_dash]
      exact h.taken

/-- Any other flag goes with the parameters behind it. -/
theorem accepts_cons_iff (ha : a ≠ "-") (rest : List String) :
    p.Accepts (a :: rest) ↔ isFlag a = true ∧ p.Knows a ∧
      (∀ s ∈ share (rest.takeWhile (!isFlag ·)) (p.named a), s.1.Takes s.2.length) ∧
      p.Accepts (rest.dropWhile (!isFlag ·)) := by
  constructor
  · intro h
    have hflag : isFlag a = true := h.start a rfl
    have htaken := h.taken
    rw [shares_cons hflag, List.forall_mem_append, ← shares_dropWhile] at htaken
    refine ⟨hflag, h.known a List.mem_cons_self, htaken.1, isFlag_of_head?_dropWhile rest, ?_,
      (bare_dropWhile ha rest).1 h.bare, htaken.2⟩
    rw [forall_knows_dropWhile]
    exact fun b hb => h.known b (List.mem_cons_of_mem a hb)
  · rintro ⟨hflag, hknown, htaken, h⟩
    refine ⟨fun b hb => ?_, ?_, (bare_dropWhile ha rest).2 h.bare, ?_⟩
    · cases hb
      exact hflag
    · exact List.forall_mem_cons.2 ⟨hknown, (forall_knows_dropWhile p rest).1 h.known⟩
    · rw [shares_cons hflag, List.forall_mem_append, ← shares_dropWhile]
      exact ⟨htaken, h.taken⟩

/-! ## Reading -/

theorem meant_dash (rest : List String) : p.meant ("-" :: rest) = p.meant rest := by
  rw [meant, shares_dash, meant]

theorem meant_cons (ha : isFlag a = true) (rest : List String) :
    p.meant (a :: rest) = (share (rest.takeWhile (!isFlag ·)) (p.named a)).map
      (fun (r, parameters) => r.tokenWith parameters) ++
        p.meant (rest.dropWhile (!isFlag ·)) := by
  rw [meant, shares_cons ha, List.map_append, meant, shares_dropWhile]

theorem forall_share_cons {first : Rule α} {cluster : List (Rule α)} {parameters : List String} :
    (∀ s ∈ share parameters (first :: cluster), s.1.Takes s.2.length) ↔
      first.Takes parameters.length ∧ ∀ r ∈ cluster, r.Takes 0 := by
  rw [share, List.forall_mem_cons, List.forall_mem_map]
  rfl

theorem map_share_cons {first : Rule α} {cluster : List (Rule α)} {parameters : List String} :
    (share parameters (first :: cluster)).map (fun (r, parameters) => r.tokenWith parameters) =
      first.tokenWith parameters :: cluster.map (·.tokenWith []) := by
  rw [share, List.map_cons, List.map_map]
  rfl

theorem tokensOf_dash (p : Parser α) (rest : List String) :
    p.tokensOf ("-" :: rest) = p.tokensOf rest := by
  have hrules : p.rulesFor "-" = .ok [] :=
    rulesFor_eq_ok_iff.2 ⟨isFlag_dash, p.knows_dash, p.named_dash.symm⟩
  rw [tokensOf, hrules]
  rfl

/-- A group gives a token for each rule that it names, in front of those of the groups behind it. -/
theorem tokensOf_cons_eq_ok_iff {rest : List String} {tokens : List Token} (ha : a ≠ "-") :
    p.tokensOf (a :: rest) = .ok tokens ↔ isFlag a = true ∧ p.Knows a ∧
      (∀ s ∈ share (rest.takeWhile (!isFlag ·)) (p.named a), s.1.Takes s.2.length) ∧
      ∃ later, p.tokensOf (rest.dropWhile (!isFlag ·)) = .ok later ∧
        tokens = (share (rest.takeWhile (!isFlag ·)) (p.named a)).map
          (fun (r, parameters) => r.tokenWith parameters) ++ later := by
  rw [tokensOf, bind_eq_ok_iff]
  constructor
  · rintro ⟨rules, hrules, h⟩
    obtain ⟨hflag, hknown, rfl⟩ := rulesFor_eq_ok_iff.1 hrules
    -- only a dash alone names no rule
    cases hnamed : p.named a with
    | nil => exact absurd ((named_eq_nil_iff hflag hknown).1 hnamed) ha
    | cons first cluster =>
      rw [hnamed] at h
      obtain ⟨token, htoken, h⟩ := bind_eq_ok_iff.1 h
      obtain ⟨others, hothers, h⟩ := bind_eq_ok_iff.1 h
      obtain ⟨later, hlater, h⟩ := bind_eq_ok_iff.1 h
      obtain ⟨hfirst, rfl⟩ := token_eq_ok_iff.1 htoken
      obtain ⟨hcluster, rfl⟩ := mapM_token_eq_ok_iff.1 hothers
      cases h
      rw [forall_share_cons, map_share_cons]
      exact ⟨hflag, hknown, ⟨hfirst, hcluster⟩, later, hlater, rfl⟩
  · rintro ⟨hflag, hknown, htakes, later, hlater, rfl⟩
    refine ⟨p.named a, rulesFor_eq_ok_iff.2 ⟨hflag, hknown, rfl⟩, ?_⟩
    cases hnamed : p.named a with
    | nil => exact absurd ((named_eq_nil_iff hflag hknown).1 hnamed) ha
    | cons first cluster =>
      rw [hnamed] at htakes
      obtain ⟨hfirst, hcluster⟩ := forall_share_cons.1 htakes
      refine bind_eq_ok_iff.2 ⟨_, token_eq_ok_iff.2 ⟨hfirst, rfl⟩, ?_⟩
      refine bind_eq_ok_iff.2 ⟨_, mapM_token_eq_ok_iff.2 ⟨hcluster, rfl⟩, ?_⟩
      refine bind_eq_ok_iff.2 ⟨later, hlater, ?_⟩
      rw [map_share_cons]
      rfl

/-- A command line that fits gives the tokens that it stands for, and no other gives any. -/
theorem tokensOf_eq_ok_iff {tokens : List Token} :
    p.tokensOf arguments = .ok tokens ↔ p.Accepts arguments ∧ tokens = p.meant arguments := by
  induction arguments using groupInduction generalizing tokens with
  | nil =>
    rw [tokensOf, and_iff_right p.accepts_nil, Except.ok.injEq, eq_comm]
    rfl
  | dash rest ih => rw [tokensOf_dash, accepts_dash_iff, meant_dash, ih]
  | flag a rest ha ih =>
    rw [tokensOf_cons_eq_ok_iff ha, accepts_cons_iff ha]
    constructor
    · rintro ⟨hflag, hknown, htakes, later, hlater, rfl⟩
      obtain ⟨haccepts, rfl⟩ := ih.1 hlater
      exact ⟨⟨hflag, hknown, htakes, haccepts⟩, (meant_cons hflag rest).symm⟩
    · rintro ⟨⟨hflag, hknown, htakes, haccepts⟩, rfl⟩
      exact ⟨hflag, hknown, htakes, _, ih.2 ⟨haccepts, rfl⟩, meant_cons hflag rest⟩

/-- The parameters of a cluster are those of its first token. -/
theorem flatMap_given_share {parameters : List String} {rules : List (Rule α)}
    (hrules : rules ≠ []) :
    ((share parameters rules).map fun (r, parameters) => r.tokenWith parameters).flatMap
      Token.given = parameters := by
  cases rules with
  | nil => exact absurd rfl hrules
  | cons first cluster =>
    have hcluster : (cluster.map (·.tokenWith [])).flatMap Token.given = [] := by
      rw [List.flatMap_map, List.flatMap_eq_nil_iff]
      exact fun _ _ => rfl
    rw [map_share_cons, List.flatMap_cons, hcluster, List.append_nil]
    rfl

/-- All arguments that are no flags are parameters, in their order. -/
theorem flatMap_given_meant (h : p.Accepts arguments) :
    (p.meant arguments).flatMap Token.given = arguments.filter (!isFlag ·) := by
  induction arguments using groupInduction with
  | nil => rfl
  | dash rest ih =>
    rw [meant_dash, List.filter_cons_of_neg (by simp [isFlag_dash])]
    exact ih ((accepts_dash_iff rest).1 h)
  | flag a rest ha ih =>
    obtain ⟨hflag, hknown, -, hbehind⟩ := (accepts_cons_iff ha rest).1 h
    have hnamed : p.named a ≠ [] := fun hnil => ha ((named_eq_nil_iff hflag hknown).1 hnil)
    have hsplit : rest.filter (!isFlag ·) = rest.takeWhile (!isFlag ·) ++
        (rest.dropWhile (!isFlag ·)).filter (!isFlag ·) := by
      conv_lhs => rw [← List.takeWhile_append_dropWhile (p := (!isFlag ·)) (l := rest)]
      rw [List.filter_append, List.filter_eq_self.2 (List.all_eq_true.1 List.all_takeWhile)]
    rw [meant_cons hflag, List.flatMap_append, flatMap_given_share hnamed, ih hbehind,
      List.filter_cons_of_neg (by simp [hflag]), hsplit]

/-- Reads a command line into a parser. -/
def load (arguments : List String) : ExceptT Fault (StateM (Parser α)) Unit := do
  set (← ofExcept ((← get).read arguments))

/-- The outcome of reading a command line into a parser, with the parser behind it. -/
def loaded (p : Parser α) (arguments : List String) : Except Fault Unit × Parser α :=
  (load arguments).run.run p

theorem loaded_eq (p : Parser α) (arguments : List String) :
    p.loaded arguments = match p.tokensOf arguments with
      | .ok tokens => (.ok (), { p with tokens })
      | .error fault => (.error fault, p) := by
  have hread : p.loaded arguments = match p.read arguments with
      | .ok q => (.ok (), q)
      | .error fault => (.error fault, p) := by
    have hrun : p.loaded arguments =
        ((ofExcept (p.read arguments) : ExceptT Fault (StateM (Parser α)) (Parser α)) >>=
          set).run.run p := rfl
    rw [hrun]
    cases p.read arguments with
    | ok q => rfl
    | error fault => rfl
  rw [hread, read]
  cases p.tokensOf arguments <;> rfl

/-- **A parser takes over all of a command line or nothing of it.** -/
theorem load_all_or_nothing (p : Parser α) (arguments : List String) :
    ((∃ q, p.loaded arguments = (.ok (), q)) ↔ p.Accepts arguments) ∧
      (∀ q, p.loaded arguments = (.ok (), q) → q = { p with tokens := p.meant arguments } ∧
        q.tokens.flatMap Token.given = arguments.filter (!isFlag ·)) ∧
      ∀ fault q, p.loaded arguments = (.error fault, q) → q = p := by
  rw [loaded_eq]
  cases htokens : p.tokensOf arguments with
  | ok tokens =>
    obtain ⟨haccepts, rfl⟩ := tokensOf_eq_ok_iff.1 htokens
    refine ⟨iff_of_true ⟨_, rfl⟩ haccepts, ?_, nofun⟩
    rintro q ⟨⟩
    exact ⟨rfl, flatMap_given_meant haccepts⟩
  | error fault =>
    refine ⟨iff_of_false nofun fun haccepts => ?_, nofun, ?_⟩
    · rw [tokensOf_eq_ok_iff.2 ⟨haccepts, rfl⟩] at htokens
      cases htokens
    · rintro _ q ⟨⟩
      rfl

/-- A parser that has read a command line before. -/
def reused : Parser Unit where
  rules :=
    [⟨'o', "output", "<dir>", "Output", .output, 1, some 1, .setting, ()⟩,
      ⟨'d', "debug", "-", "Debug", .debug, 0, none, .setting, ()⟩,
      ⟨'c', "compile", "<file>+", "Compile", .compile, 1, none, .executable, ()⟩]
  tokens := [⟨.executable, .compile, some ["Old.jack"]⟩]

/-- A cluster, whose first flag gets the parameters, and a dash alone. The dash takes no parameters,
and the tokens from before are kept then. -/
theorem load_all_or_nothing_cluster :
    (∃ q, reused.loaded ["-od", "out", "-", "--compile", "A.jack", "B.jack"] = (.ok (), q) ∧
      q.tokens = [⟨.setting, .output, some ["out"]⟩, ⟨.setting, .debug, some []⟩,
        ⟨.executable, .compile, some ["A.jack", "B.jack"]⟩] ∧
      q.tokens.flatMap Token.given = ["out", "A.jack", "B.jack"]) ∧
    ∃ fault q, reused.loaded ["-c", "A.jack", "-", "B.jack"] = (.error fault, q) ∧ q = reused := by
  constructor
  · have htokens : (reused.tokensOf ["-od", "out", "-", "--compile", "A.jack", "B.jack"]).toOption =
        some [⟨.setting, .output, some ["out"]⟩, ⟨.setting, .debug, some []⟩,
          ⟨.executable, .compile, some ["A.jack", "B.jack"]⟩] := by decide +kernel
    have hloaded := loaded_eq reused ["-od", "out", "-", "--compile", "A.jack", "B.jack"]
    rw [toOption_eq_some_iff.1 htokens] at hloaded
    obtain ⟨-, hgiven⟩ := (load_all_or_nothing reused _).2.1 _ hloaded
    refine ⟨_, hloaded, rfl, hgiven.trans ?_⟩
    decide +kernel
  · have htokens : (reused.tokensOf ["-c", "A.jack", "-", "B.jack"]).isOk = false := by
      decide +kernel
    obtain ⟨fault, hfault⟩ := isOk_eq_false_iff.1 htokens
    have hloaded := loaded_eq reused ["-c", "A.jack", "-", "B.jack"]
    rw [hfault] at hloaded
    exact ⟨fault, _, hloaded, (load_all_or_nothing reused _).2.2 _ _ hloaded⟩

end Parser

end JackToolchain.CommandLine
