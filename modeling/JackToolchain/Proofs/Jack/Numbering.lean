import JackToolchain.Proofs.Jack.Scope

/-!
# Scopes that operations reach

A scope starts empty. Declarations add to it, also those that are refused, and at the end of a
subroutine its level is emptied.

* `Operation`, `Scope.after`: what is done to a scope, and the scope behind it.
* `Scope.Dense`: names are unique on their level, and each kind is numbered in order.
* `Dense.toNat_indices`: where the counter of a kind is not left behind, there are no gaps.
* `Dense.apply`, `dense_after`: every operation keeps this, so every scope that is reached has it.
* `Scope.Lawful`: what declarations, lookups and the end of a subroutine do.
* `lawful_after`: **every scope that operations reach is lawful**.
-/

namespace JackToolchain.Jack

open Vm

variable {s s' : Scope} {name other type : String} {k l : Kind} {v w : Variable}

/-! ## Operations -/

/-- What is done to a scope. -/
inductive Operation where
  | define (name type : String) (kind : Kind)
  | leaveSubroutine
deriving DecidableEq, Repr

/-- The scope behind an operation. A declaration that is refused changes nothing. -/
def Operation.apply (s : Scope) : Operation → Scope
  | .define name type kind => (s.define name type kind).getD s
  | .leaveSubroutine => s.leaveSubroutine

namespace Scope

/-- The scope behind operations on an empty one. -/
def after (operations : List Operation) : Scope :=
  operations.foldl Operation.apply {}

theorem define_eq_none_iff : s.define name type k = none ↔ name ∈ s.names k := by
  simp only [Option.eq_none_iff_forall_ne_some, ne_eq, define_eq_some_iff, not_and]
  exact ⟨fun h => Decidable.not_not.1 fun hn => h _ hn rfl, fun h s' hn => absurd h hn⟩

/-! ## The invariant -/

/-- The variables of a kind, in the order of their declarations. -/
def ofKind (s : Scope) (k : Kind) : List Variable :=
  (s.level k).filter (·.kind = k)

theorem ofKind_add (s : Scope) (v : Variable) (k : Kind) :
    (s.add v).ofKind k = if v.kind = k then s.ofKind k ++ [v] else s.ofKind k := by
  rw [ofKind, level_add]
  by_cases hk : v.kind = k
  · subst hk
    rw [if_pos rfl, if_pos rfl, List.filter_append]
    simp [ofKind]
  · rw [if_neg hk]
    split
    · rw [List.filter_append]
      simp [ofKind, hk]
    · rfl

/-- The names of a level are unique, and the variables of a kind have the indices from 0 on in
their order, of which 16 bits are kept. -/
structure Dense (s : Scope) : Prop extends Numbered s where
  nodup : ∀ k, (s.names k).Nodup
  indices : ∀ k, (s.ofKind k).map Variable.index = (List.range (s.number k)).map UInt16.ofNat

theorem dense_empty : Dense {} := by
  refine ⟨numbered_empty, ?_, ?_⟩ <;> intro k <;> cases k <;>
    simp [names, Scope.level, ofKind, number]

theorem Dense.add (hs : s.Dense) (hname : v.name ∉ s.names v.kind)
    (hindex : v.index = s.count v.kind) : (s.add v).Dense := by
  refine ⟨hs.toNumbered.add hindex, fun k => ?_, fun k => ?_⟩
  · rw [names_add]
    split
    · next hk =>
      have hnames : s.names k = s.names v.kind := by rw [names, names, s.level_congr hk]
      rw [hnames, List.nodup_append]
      refine ⟨hs.nodup _, by simp, ?_⟩
      rintro a ha b hb rfl
      exact hname (List.mem_singleton.1 hb ▸ ha)
    · exact hs.nodup k
  · rw [ofKind_add, number_add]
    split
    · next hk =>
      subst hk
      rw [List.map_append, hs.indices, List.range_succ, List.map_append, List.map_singleton,
        List.map_singleton, hindex, hs.counts]
    · exact hs.indices k

theorem Dense.leaveSubroutine (hs : s.Dense) : s.leaveSubroutine.Dense := by
  refine ⟨hs.toNumbered.leaveSubroutine, fun k => ?_, fun k => ?_⟩
  · rw [names, level_leaveSubroutine]
    split
    · exact hs.nodup k
    · exact List.nodup_nil
  · rw [ofKind, level_leaveSubroutine, number_leaveSubroutine]
    split
    · exact hs.indices k
    · rfl

/-- Every operation keeps a scope dense. -/
theorem Dense.apply (hs : s.Dense) (operation : Operation) : (operation.apply s).Dense := by
  cases operation with
  | define name type kind =>
    rw [Operation.apply]
    cases hd : s.define name type kind with
    | none => exact hs
    | some s' =>
      obtain ⟨hname, rfl⟩ := define_eq_some_iff.1 hd
      exact hs.add hname rfl
  | leaveSubroutine => exact hs.leaveSubroutine

theorem Dense.foldl (hs : s.Dense) (operations : List Operation) :
    (operations.foldl Operation.apply s).Dense := by
  induction operations generalizing s with
  | nil => exact hs
  | cons operation operations ih => exact ih (hs.apply operation)

theorem Dense.declared {es : List Grammar.VarEntry} (hs : s.Dense)
    (hd : Grammar.declared? s es = some s') : s'.Dense := by
  induction es generalizing s with
  | nil =>
    cases hd
    exact hs
  | cons e es ih =>
    obtain ⟨s₁, hdefine, hrest⟩ := Option.bind_eq_some_iff.1 (Grammar.declared?_cons .. ▸ hd)
    obtain ⟨hname, rfl⟩ := define_eq_some_iff.1 hdefine
    exact ih (hs.add hname rfl) hrest

/-- **Names stay unique, and kinds are numbered in order.** -/
theorem dense_after (operations : List Operation) : (after operations).Dense :=
  dense_empty.foldl operations

/-- A counter that is not left behind numbers without gaps, and shows how many there are. -/
theorem Dense.toNat_indices (hs : s.Dense) (hk : s.number k ≤ maxNumber) :
    (s.ofKind k).map (·.index.toNat) = List.range (s.number k) ∧
      (s.count k).toNat = s.number k := by
  have hmap : (s.ofKind k).map (·.index.toNat) = (List.range (s.number k)).map counted := by
    have hindices := congrArg (List.map UInt16.toNat) (hs.indices k)
    rw [List.map_map, List.map_map] at hindices
    exact hindices
  rw [hmap, hs.toNat_count, counted_eq_iff.2 hk]
  have hid : ∀ n ∈ List.range (s.number k), counted n = n := fun n hn =>
    counted_eq_iff.2 (Nat.le_trans (Nat.le_of_lt (List.mem_range.1 hn)) hk)
  exact ⟨(List.map_congr_left hid).trans (List.map_id _), rfl⟩

/-! ## Lookups -/

theorem find?_eq_none_iff {vs : List Variable} :
    vs.find? (·.name = name) = none ↔ name ∉ vs.map Variable.name := by
  simp [List.find?_eq_none]

theorem Dense.find?_of_mem_subroutineLevel (hs : s.Dense) (hv : v ∈ s.subroutineLevel) :
    s.find? v.name = some v := by
  have hfound := (find?_key_eq_some_iff (hs.nodup .local)).2 ⟨hv, rfl⟩
  exact Option.or_eq_some_iff.2 (.inl hfound)

theorem Dense.find?_of_mem_classLevel (hs : s.Dense) (hv : v ∈ s.classLevel)
    (hn : v.name ∉ s.names .local) : s.find? v.name = some v := by
  have hfound := (find?_key_eq_some_iff (hs.nodup .static)).2 ⟨hv, rfl⟩
  exact Option.or_eq_some_iff.2 (.inr ⟨find?_eq_none_iff.2 hn, hfound⟩)

theorem find?_eq_none (hlocal : name ∉ s.names .local) (hclass : name ∉ s.names .static) :
    s.find? name = none := by
  rw [find?, Option.or_eq_none_iff]
  exact ⟨find?_eq_none_iff.2 hlocal, find?_eq_none_iff.2 hclass⟩

theorem name_of_find? (h : s.find? name = some v) : v.name = name := by
  rcases Option.or_eq_some_iff.1 h with h | ⟨-, h⟩
  · simpa using List.find?_some h
  · simpa using List.find?_some h

/-! ## Places in memory -/

theorem segment_injective (h : k.segment = l.segment) : k = l := by
  cases k <;> cases l <;> first | rfl | cases h

theorem Dense.mem_ofKind (hs : s.Dense) (hv : v ∈ s.inReach) : v ∈ s.ofKind v.kind := by
  refine List.mem_filter.2 ⟨?_, by simp⟩
  rcases List.mem_append.1 hv with hv | hv
  · rwa [s.level_congr (hs.level .static v hv)]
  · rwa [s.level_congr (hs.level .local v hv)]

/-- Variables of a dense scope that have one place are one, if they can be counted. -/
theorem Dense.eq_of_place_eq (hs : s.Dense) (hv : v ∈ s.inReach) (hw : w ∈ s.inReach)
    (hnumber : s.number v.kind ≤ maxNumber)
    (h : (v.kind.segment, v.index) = (w.kind.segment, w.index)) : v = w := by
  obtain ⟨hsegment, hindex⟩ := Prod.mk.inj h
  have hkind : v.kind = w.kind := segment_injective hsegment
  have hnodup : ((s.ofKind w.kind).map (·.index.toNat)).Nodup := by
    rw [(hs.toNat_indices (hkind ▸ hnumber)).1]
    exact List.nodup_range
  exact List.inj_on_of_nodup_map hnodup (hkind ▸ hs.mem_ofKind hv) (hs.mem_ofKind hw)
    (congrArg UInt16.toNat hindex)

/-! ## Laws -/

/-- What declarations, lookups and the end of a subroutine do to a scope. Where a kind has at most
65535 variables, they are numbered without gaps and different names have different places. -/
structure Lawful (s : Scope) : Prop extends Dense s where
  /-- The variables of a kind have the indices below its count, in their order. -/
  gapless : ∀ k, s.number k ≤ maxNumber →
    (s.ofKind k).map (·.index.toNat) = List.range (s.count k).toNat ∧
      (s.count k).toNat = s.number k
  /-- A declaration is refused exactly if its name stands on its level. -/
  refused : ∀ name type k, s.define name type k = none ↔ name ∈ s.names k
  /-- One that is refused changes nothing. -/
  kept : ∀ name type k, name ∈ s.names k → (Operation.define name type k).apply s = s
  /-- One that succeeds adds its variable, with the next index, and changes no other. -/
  declared : ∀ name type k s', s.define name type k = some s' → ∀ l, s'.level l =
    if l.isClassLevel = k.isClassLevel then s.level l ++ [⟨name, type, k, s.count k⟩]
    else s.level l
  /-- It counts for its own kind only. -/
  counted : ∀ name type k s', s.define name type k = some s' →
    ∀ l, s'.count l = s.count l + if k = l then 1 else 0
  /-- A variable of the subroutine is what its name means. -/
  ofSubroutine : ∀ v ∈ s.subroutineLevel, s.find? v.name = some v
  /-- So is a variable of the class whose name the subroutine does not have. -/
  ofClass : ∀ v ∈ s.classLevel, v.name ∉ s.names .local → s.find? v.name = some v
  /-- Other names mean nothing. -/
  ofNeither : ∀ name, name ∉ s.names .local → name ∉ s.names .static → s.find? name = none
  /-- The end of a subroutine empties its level and leaves that of the class. -/
  emptied : ∀ k, s.leaveSubroutine.level k = if k.isClassLevel then s.level k else []
  /-- So it does with the counts. -/
  uncounted : ∀ k, s.leaveSubroutine.count k = if k.isClassLevel then s.count k else 0
  /-- Different names have different places. -/
  apart : ∀ name other v w, s.find? name = some v → s.find? other = some w → name ≠ other →
    s.number v.kind ≤ maxNumber → (v.kind.segment, v.index) ≠ (w.kind.segment, w.index)

theorem Dense.lawful (hs : s.Dense) : s.Lawful where
  toDense := hs
  gapless k hk := by
    obtain ⟨hindices, hcount⟩ := hs.toNat_indices hk
    rw [hcount]
    exact ⟨hindices, rfl⟩
  refused _ _ _ := define_eq_none_iff
  kept name type k hname := by
    rw [Operation.apply, define_eq_none_iff.2 hname]
    rfl
  declared name type k s' hd l := by
    obtain ⟨-, rfl⟩ := define_eq_some_iff.1 hd
    exact s.level_add _ l
  counted name type k s' hd l := by
    obtain ⟨-, rfl⟩ := define_eq_some_iff.1 hd
    exact s.count_add _ l
  ofSubroutine _ hv := hs.find?_of_mem_subroutineLevel hv
  ofClass _ hv hn := hs.find?_of_mem_classLevel hv hn
  ofNeither _ hlocal hclass := find?_eq_none hlocal hclass
  emptied := s.level_leaveSubroutine
  uncounted := s.count_leaveSubroutine
  apart name other v w hv hw hne hnumber hplace := by
    have heq := hs.eq_of_place_eq (mem_inReach_of_find? hv) (mem_inReach_of_find? hw) hnumber hplace
    rw [← name_of_find? hv, ← name_of_find? hw, heq] at hne
    exact hne rfl

end Scope

/-- **Every scope that operations reach is lawful.** Its counters have 16 bits, and the variables of
a kind are numbered by them as long as there are at most 65535 on its level. -/
theorem lawful_after (operations : List Operation) : (Scope.after operations).Lawful :=
  (Scope.dense_after operations).lawful

/-- A declaration that is refused, and a variable of the subroutine that hides a field. -/
example : let s := Scope.after [.define "x" "int" .field, .define "x" "P" .static,
      .define "n" "int" .static, .define "x" "P" .local]
    s.find? "x" = some ⟨"x", "P", .local, 0⟩ ∧ s.find? "n" = some ⟨"n", "int", .static, 0⟩ ∧
      s.leaveSubroutine.find? "x" = some ⟨"x", "int", .field, 0⟩ := by
  decide

end JackToolchain.Jack
