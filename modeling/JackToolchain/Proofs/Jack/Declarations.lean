import JackToolchain.Proofs.Jack.Acceptance
import JackToolchain.Proofs.Jack.Numbering

/-!
# What a class and a subroutine declare

The scope of a subroutine has what the subroutine and its class declare, and its counters show
how much that is, in 16 bits. The code of a subroutine starts with what they show.

* `Cls.count`, `Sub.count`: how many variables of a kind are declared.
* `number_header?`, `toNat_count_header?`: how many there are in the scope of a subroutine, and
  what its counters show.
* `find?_declared`: a declared variable is found with its number as its index.
* `code_eq_of_subTree?`: the header and the prologue of a subroutine.
-/

namespace JackToolchain.Jack

open Grammar Vm

variable {className : String} {scope : Scope} {kindOf? : Keyword → Option Kind}
  {k : Kind} {h : Header} {s : Sub} {c : Cls}

/-! ## Declarations -/

namespace Grammar

/-- How many variables of a kind some declarations declare. -/
def declaredCount (k : Kind) (ds : List (VarDec kindOf?)) : Nat :=
  ((ds.filter (·.kind = k)).flatMap VarDec.names).length

/-- How many variables of a kind a class declares. -/
def Cls.count (c : Cls) (k : Kind) : Nat :=
  declaredCount k c.declarations

/-- How many variables of a kind a subroutine declares. The object of a method is an
argument beside its parameters. -/
def Sub.count (s : Sub) : Kind → Nat
  | .local => (s.declarations.flatMap VarDec.names).length
  | .argument => s.parameters.length + if s.kind = .method then 1 else 0
  | .static | .field => 0

/-- The instructions that set the current object of a subroutine, with as much room for its
fields. -/
def Sub.prologue (s : Sub) (fields : Nat) : List Instruction :=
  match s.kind with
  | .constructor => [.push .constant fields, .call "Memory.alloc" 1, .pop .pointer 0]
  | .method => [.push .argument 0, .pop .pointer 0]
  | .function => []

end Grammar

/-! ## Scopes have what is declared -/

theorem number_declared? {scope' : Scope} {es : List VarEntry}
    (hd : declared? scope es = some scope') (k : Kind) :
    scope'.number k = scope.number k + es.countP (·.kind = k) := by
  induction es generalizing scope with
  | nil =>
    cases hd
    rfl
  | cons e es ih =>
    obtain ⟨scope₁, hdefine, hrest⟩ := Option.bind_eq_some_iff.1 (declared?_cons .. ▸ hd)
    obtain ⟨-, rfl⟩ := Scope.define_eq_some_iff.1 hdefine
    rw [ih hrest, Scope.number_add, List.countP_cons]
    simp only [decide_eq_true_eq]
    omega

theorem countP_entries (k : Kind) (ds : List (VarDec kindOf?)) :
    (ds.flatMap VarDec.entries).countP (·.kind = k) = declaredCount k ds := by
  induction ds with
  | nil => rfl
  | cons d ds ih =>
    rw [List.flatMap_cons, List.countP_append, ih, VarDec.entries, List.countP_map]
    by_cases hk : d.kind = k
    · simp [declaredCount, hk, Function.comp_def]
    · simp [declaredCount, hk, Function.comp_def]

theorem number_scope? (hscope : c.scope? = some scope) (k : Kind) :
    scope.number k = c.count k := by
  have hempty : Scope.number {} k = 0 := by cases k <;> rfl
  rw [number_declared? hscope, hempty, Nat.zero_add, countP_entries, Cls.count]

/-- A class declares no arguments and no local variables. -/
theorem count_of_subroutineLevel (c : Cls) (hk : k.isClassLevel = false) : c.count k = 0 := by
  have hnone : c.declarations.filter (·.kind = k) = [] := by
    rw [List.filter_eq_nil_iff]
    intro d _ hd
    have hclass := isClassLevel_of_classKind? d.starts
    rw [of_decide_eq_true hd, hk] at hclass
    cases hclass
  rw [Cls.count, declaredCount, hnone]
  rfl

theorem countP_subEntries (s : Sub) (k : Kind) :
    (s.entries className).countP (·.kind = k) = s.count k := by
  have hobject : (objectEntries className s.kind).countP (·.kind = k) =
      if k = .argument ∧ s.kind = .method then 1 else 0 := by
    cases s.kind <;> cases k <;> rfl
  have hparameters : (s.parameters.map Parameter.entry).countP (·.kind = k) =
      if k = .argument then s.parameters.length else 0 := by
    rw [List.countP_map]
    cases k <;> simp [Function.comp_def, Parameter.entry]
  have hlocals : declaredCount k s.declarations =
      if k = .local then (s.declarations.flatMap VarDec.names).length else 0 := by
    have hkind : ∀ d ∈ s.declarations, d.kind = .local := fun d _ => eq_local_of_localKind? d.starts
    split
    · next hk =>
      rw [declaredCount, List.filter_eq_self.2 fun d hd => by simp [hkind d hd, hk]]
    · next hk =>
      rw [declaredCount, List.filter_eq_nil_iff.2 fun d hd => by simp [hkind d hd, Ne.symm hk]]
      rfl
  rw [Sub.entries, List.countP_append, List.countP_append, countP_entries, hobject, hparameters,
    hlocals]
  cases k <;> simp [Sub.count, Nat.add_comm]

/-- The scope of a subroutine has its own declarations and those of its class. -/
theorem number_header? (hscope : c.scope? = some scope)
    (hh : s.header? c.name scope = some h) (k : Kind) :
    h.scope.number k = c.count k + s.count k := by
  obtain ⟨scope', hdeclared, rfl⟩ := header?_eq_some_iff.1 hh
  rw [number_declared? hdeclared, countP_subEntries, Scope.number_leaveSubroutine,
    number_scope? hscope]
  cases hk : k.isClassLevel with
  | true => rfl
  | false => rw [count_of_subroutineLevel c hk]; rfl

theorem dense_header? (hscope : c.scope? = some scope)
    (hh : s.header? c.name scope = some h) : h.scope.Dense := by
  obtain ⟨scope', hdeclared, rfl⟩ := header?_eq_some_iff.1 hh
  have hclass : scope.Dense := Scope.dense_empty.declared hscope
  exact hclass.leaveSubroutine.declared hdeclared

/-- Its counters show that in 16 bits. -/
theorem toNat_count_header? (hscope : c.scope? = some scope)
    (hh : s.header? c.name scope = some h) (k : Kind) :
    (h.scope.count k).toNat = counted (c.count k + s.count k) := by
  rw [(dense_header? hscope hh).toNat_count, number_header? hscope hh]

/-- The variables of a kind that a subroutine declares are in its scope in their order. -/
theorem map_entry_ofKind (hh : s.header? c.name scope = some h) (hk : k.isClassLevel = false) :
    (h.scope.ofKind k).map Variable.entry = (s.entries c.name).filter (·.kind = k) := by
  obtain ⟨scope', hdeclared, rfl⟩ := header?_eq_some_iff.1 hh
  have hentries : (scope'.level k).map Variable.entry = s.entries c.name := by
    have hlevel : scope.leaveSubroutine.level k = [] := by
      rw [Scope.level_leaveSubroutine, hk]
      rfl
    have hsame : ∀ e ∈ s.entries c.name, e.kind.isClassLevel = k.isClassLevel := by
      intro e he
      rw [hk]
      exact isClassLevel_of_mem_entries s he
    rw [entries_declared? hsame hdeclared, hlevel]
    rfl
  rw [← hentries, List.filter_map]
  rfl

/-- Each of them is found under its name, with its number as its index, of which 16 bits are
kept. -/
theorem find?_declared {i : Nat} {e : VarEntry} (hscope : c.scope? = some scope)
    (hh : s.header? c.name scope = some h) (hk : k.isClassLevel = false)
    (he : ((s.entries c.name).filter (·.kind = k))[i]? = some e) :
    h.scope.find? e.name = some ⟨e.name, e.type, k, UInt16.ofNat i⟩ := by
  have hdense := dense_header? hscope hh
  rw [← map_entry_ofKind hh hk, List.getElem?_map] at he
  obtain ⟨v, hv, rfl⟩ := Option.map_eq_some_iff.1 he
  -- the variables of a kind are numbered from 0 in their order
  have hindex : v.index = UInt16.ofNat i := by
    have hget := congrArg (·[i]?) (hdense.indices k)
    simp only [List.getElem?_map, hv, Option.map_some] at hget
    obtain ⟨n, hrange, hn⟩ := Option.map_eq_some_iff.1 hget.symm
    obtain ⟨_, hrange⟩ := List.getElem?_eq_some_iff.1 hrange
    rw [← hn, ← hrange, List.getElem_range]
  obtain ⟨hlevel, hkind⟩ := List.mem_filter.1 (List.mem_of_getElem? hv)
  have hmem : v ∈ h.scope.subroutineLevel := by rwa [Scope.level, hk] at hlevel
  obtain ⟨name, type, kind, index⟩ := v
  cases hindex
  cases of_decide_eq_true hkind
  exact hdense.find?_of_mem_subroutineLevel hmem

/-! ## Code -/

/-- The code of a subroutine has its header and its prologue in front. -/
theorem code_eq_of_subTree? {sub : Subroutine} (hscope : c.scope? = some scope)
    (hs : s.tree? c.name scope = some sub) :
    sub.code = .function (qualifiedName c.name s.name) (counted (s.count .local)) ::
      (s.prologue (counted (c.count .field)) ++
        ((statementsCode sub.className {} sub.body).1 ++ sub.epilogue)) := by
  obtain ⟨h, hh, body, -, rfl⟩ := subTree?_eq_some_iff.1 hs
  have hlocals : (h.scope.count .local).toNat = counted (s.count .local) := by
    rw [toNat_count_header? hscope hh, count_of_subroutineLevel c rfl, Nat.zero_add]
  have hfields : (h.scope.count .field).toNat = counted (c.count .field) :=
    toNat_count_header? hscope hh .field
  obtain ⟨hname, hkind⟩ : h.qualifiedName = qualifiedName c.name s.name ∧ h.kind = s.kind := by
    obtain ⟨scope', -, rfl⟩ := header?_eq_some_iff.1 hh
    exact ⟨rfl, rfl⟩
  have hprologue : h.prologue = s.prologue (counted (c.count .field)) := by
    unfold Header.prologue Sub.prologue
    cases hcases : s.kind <;> simp only [hkind, hcases, hfields]
  simp only [Subroutine.code, hname, hlocals, hprologue, List.append_assoc, List.cons_append,
    List.nil_append]

end JackToolchain.Jack
