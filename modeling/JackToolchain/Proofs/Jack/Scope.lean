import JackToolchain.Proofs.Jack.Grammar.Class
import JackToolchain.Proofs.Outcome

/-!
# What declarations do to a scope

* `Scope.names`: the names on the level of a kind.
* `declared?_isSome_iff`: declarations on one level succeed if no name stands there twice.
* `Scope.number`: how many variables of a kind there are, which its counter may have left behind.
* `Scope.Numbered`: every variable stands on the level of its kind, its index is below the number
  of variables of its kind, and the counters have counted them. Declarations keep it.
* `mem_inReach_declared?`: a declared variable is one of before or one of the entries.
* `entries_declared?`: a level has what is declared on it, in that order.
-/

namespace JackToolchain.Jack

open Grammar

variable {s s' : Scope} {name type : String} {k l : Kind} {v : Variable} {es : List VarEntry}

/-- What a variable is declared as. -/
def Variable.entry (v : Variable) : VarEntry :=
  ⟨v.name, v.type, v.kind⟩

namespace Scope

/-- The names on the level of a kind. -/
def names (s : Scope) (kind : Kind) : List String :=
  (s.level kind).map Variable.name

/-- The variables of both levels. -/
def inReach (s : Scope) : List Variable :=
  s.classLevel ++ s.subroutineLevel

/-- How many variables of a kind there are. -/
def number (s : Scope) (kind : Kind) : Nat :=
  (s.level kind).countP (·.kind = kind)

/-- A scope with one more variable on the level of its kind. -/
def add (s : Scope) (v : Variable) : Scope :=
  if v.kind.isClassLevel then
    { s with
      classLevel := s.classLevel ++ [v]
      classCounters := s.classCounters.bump v.kind }
  else
    { s with
      subroutineLevel := s.subroutineLevel ++ [v]
      subroutineCounters := s.subroutineCounters.bump v.kind }

theorem level_congr (s : Scope) (h : k.isClassLevel = l.isClassLevel) : s.level k = s.level l := by
  rw [level, level, h]

theorem level_add (s : Scope) (v : Variable) (k : Kind) : (s.add v).level k =
    if k.isClassLevel = v.kind.isClassLevel then s.level k ++ [v] else s.level k := by
  unfold level add
  cases k.isClassLevel <;> cases v.kind.isClassLevel <;> rfl

theorem names_add (s : Scope) (v : Variable) (k : Kind) : (s.add v).names k =
    if k.isClassLevel = v.kind.isClassLevel then s.names k ++ [v.name] else s.names k := by
  rw [names, level_add]
  split
  · rw [List.map_append]
    rfl
  · rfl

theorem number_add (s : Scope) (v : Variable) (k : Kind) :
    (s.add v).number k = s.number k + if v.kind = k then 1 else 0 := by
  rw [number, level_add]
  by_cases hk : v.kind = k
  · subst hk
    rw [if_pos rfl, List.countP_append]
    simp [number]
  · rw [if_neg hk, Nat.add_zero]
    split
    · rw [List.countP_append]
      simp [number, hk]
    · rfl

/-- A declaration counts for its own kind only. -/
theorem count_add (s : Scope) (v : Variable) (k : Kind) :
    (s.add v).count k = s.count k + if v.kind = k then 1 else 0 := by
  unfold count add
  cases v.kind <;> cases k <;> simp [Kind.isClassLevel, Counters.get, Counters.bump]

theorem mem_inReach_add {w : Variable} :
    w ∈ (s.add v).inReach ↔ w ∈ s.inReach ∨ w = v := by
  unfold add inReach
  split
  · simp only [List.mem_append, List.mem_singleton]
    exact or_right_comm
  · simp only [List.mem_append, List.mem_singleton, or_assoc]

theorem define_eq_some_iff :
    s.define name type k = some s' ↔ name ∉ s.names k ∧ s' = s.add ⟨name, type, k, s.count k⟩ := by
  have hany : (s.level k).any (·.name = name) = true ↔ name ∈ s.names k := by
    simp [names]
  unfold define add
  split
  · next h => simp [hany.1 h]
  · next h =>
    have hn : name ∉ s.names k := fun hn => h (hany.2 hn)
    split <;> simp [*, eq_comm]

theorem find?_isSome_iff :
    (s.find? name).isSome ↔ name ∈ s.names .local ∨ name ∈ s.names .static := by
  simp [find?, names, level, Kind.isClassLevel, List.find?_isSome]

theorem mem_inReach_of_find? (h : s.find? name = some v) : v ∈ s.inReach := by
  rw [inReach, List.mem_append]
  rcases Option.or_eq_some_iff.1 h with h | ⟨-, h⟩
  · exact .inr (List.mem_of_find?_eq_some h)
  · exact .inl (List.mem_of_find?_eq_some h)

theorem level_leaveSubroutine (s : Scope) (k : Kind) :
    s.leaveSubroutine.level k = if k.isClassLevel then s.level k else [] := by
  unfold level leaveSubroutine
  split <;> rfl

theorem number_leaveSubroutine (s : Scope) (k : Kind) :
    s.leaveSubroutine.number k = if k.isClassLevel then s.number k else 0 := by
  rw [number, level_leaveSubroutine]
  split <;> rfl

theorem count_leaveSubroutine (s : Scope) (k : Kind) :
    s.leaveSubroutine.count k = if k.isClassLevel then s.count k else 0 := by
  unfold count leaveSubroutine
  split
  · rfl
  · cases k <;> rfl

/-! ## Numbering -/

/-- Every variable stands on the level of its kind, its index is below the number of variables of
its kind, and the counter of a kind has counted up to their number. -/
structure Numbered (s : Scope) : Prop where
  level : ∀ k, ∀ v ∈ s.level k, v.kind.isClassLevel = k.isClassLevel
  index : ∀ v ∈ s.inReach, v.index.toNat < s.number v.kind
  counts : ∀ k, s.count k = UInt16.ofNat (s.number k)

/-- What the counter of a kind shows. -/
theorem Numbered.toNat_count (hs : s.Numbered) (k : Kind) :
    (s.count k).toNat = counted (s.number k) := by
  rw [hs.counts, counted]

theorem numbered_empty : Numbered {} := by
  constructor
  · intro k v hv
    unfold Scope.level at hv
    split at hv <;> cases hv
  · intro v hv
    cases hv
  · intro k
    cases k <;> rfl

theorem Numbered.add (hs : s.Numbered) (hv : v.index = s.count v.kind) : (s.add v).Numbered := by
  constructor
  · intro k w hw
    rw [level_add] at hw
    split at hw
    · next hk =>
      rcases List.mem_append.1 hw with hw | hw
      · exact hs.level k w hw
      · rw [List.mem_singleton.1 hw, hk]
    · exact hs.level k w hw
  · intro w hw
    rw [number_add]
    rcases mem_inReach_add.1 hw with hw | rfl
    · exact Nat.lt_add_right _ (hs.index w hw)
    · -- a counter does not go further than what it counts
      rw [if_pos rfl, hv, hs.toNat_count]
      exact Nat.lt_succ_of_le (counted_self_le _)
  · intro k
    rw [count_add, number_add, hs.counts, UInt16.ofNat_add]
    split <;> rfl

theorem Numbered.leaveSubroutine (hs : s.Numbered) : s.leaveSubroutine.Numbered := by
  constructor
  · intro k v hv
    refine hs.level k v ?_
    unfold Scope.level Scope.leaveSubroutine at *
    split at hv
    · next hk => rwa [if_pos hk]
    · cases hv
  · intro v hv
    -- what is left is of the class, and so is all that its kind counts
    have hclass : v ∈ s.classLevel := by simpa [inReach, Scope.leaveSubroutine] using hv
    have hkind : v.kind.isClassLevel := hs.level .static v hclass
    rw [number_leaveSubroutine, if_pos hkind]
    exact hs.index v (List.mem_append_left _ hclass)
  · intro k
    rw [count_leaveSubroutine, number_leaveSubroutine]
    split
    · exact hs.counts k
    · rfl

end Scope

/-! ## Many declarations -/

theorem declared?_induction {P : Scope → Prop} (hs : P s)
    (hstep : ∀ s e, P s → e ∈ es → P (s.add ⟨e.name, e.type, e.kind, s.count e.kind⟩))
    (hd : declared? s es = some s') : P s' := by
  induction es generalizing s with
  | nil =>
    cases hd
    exact hs
  | cons e es ih =>
    obtain ⟨s₁, hdefine, hrest⟩ := Option.bind_eq_some_iff.1 (declared?_cons .. ▸ hd)
    obtain ⟨-, rfl⟩ := Scope.define_eq_some_iff.1 hdefine
    exact ih (hstep s e hs List.mem_cons_self)
      (fun s e' h he' => hstep s e' h (List.mem_cons_of_mem _ he')) hrest

theorem Scope.Numbered.declared (hs : s.Numbered) (hd : declared? s es = some s') :
    s'.Numbered :=
  declared?_induction hs (fun _ _ h _ => h.add rfl) hd

/-- A declared variable is one of before or one of the entries. -/
theorem mem_inReach_declared? (hd : declared? s es = some s') (hv : v ∈ s'.inReach) :
    v ∈ s.inReach ∨ ∃ e ∈ es, v.type = e.type := by
  revert v
  refine declared?_induction (P := fun s' => ∀ {v}, v ∈ s'.inReach →
    v ∈ s.inReach ∨ ∃ e ∈ es, v.type = e.type) (fun h => .inl h) ?_ hd
  intro s₁ e ih he v hv
  rcases Scope.mem_inReach_add.1 hv with hv | rfl
  · exact ih hv
  · exact .inr ⟨e, he, rfl⟩

section level

variable (hes : ∀ e ∈ es, e.kind.isClassLevel = k.isClassLevel)
include hes

/-- Declarations stand behind the ones of before on their level. -/
theorem entries_declared? (hd : declared? s es = some s') :
    (s'.level k).map Variable.entry = (s.level k).map Variable.entry ++ es := by
  induction es generalizing s with
  | nil =>
    cases hd
    rw [List.append_nil]
  | cons e es ih =>
    obtain ⟨s₁, hdefine, hrest⟩ := Option.bind_eq_some_iff.1 (declared?_cons .. ▸ hd)
    obtain ⟨-, rfl⟩ := Scope.define_eq_some_iff.1 hdefine
    have hk : k.isClassLevel = e.kind.isClassLevel := (hes e List.mem_cons_self).symm
    rw [ih (fun e' he' => hes e' (List.mem_cons_of_mem _ he')) hrest, Scope.level_add, if_pos hk,
      List.map_append, List.append_assoc]
    rfl

theorem names_declared? (hd : declared? s es = some s') :
    s'.names k = s.names k ++ es.map VarEntry.name := by
  have hnames (s : Scope) : s.names k = ((s.level k).map Variable.entry).map VarEntry.name := by
    rw [List.map_map]
    rfl
  rw [hnames s', entries_declared? hes hd, List.map_append, ← hnames s]

/-- Declarations leave the other level as it was. -/
theorem level_declared?_of_ne (hl : l.isClassLevel ≠ k.isClassLevel)
    (hd : declared? s es = some s') : s'.level l = s.level l := by
  refine declared?_induction (P := fun s' => s'.level l = s.level l) rfl ?_ hd
  intro s₁ e ih he
  have hne : l.isClassLevel ≠ e.kind.isClassLevel := by
    rw [hes e he]
    exact hl
  rw [Scope.level_add, if_neg hne, ih]

/-- Declarations on one level succeed if no name stands there twice. -/
theorem declared?_isSome_iff (hs : (s.names k).Nodup) :
    (declared? s es).isSome ↔ (s.names k ++ es.map VarEntry.name).Nodup := by
  induction es generalizing s with
  | nil => simpa [declared?] using hs
  | cons e es ih =>
    have hk : k.isClassLevel = e.kind.isClassLevel := (hes e List.mem_cons_self).symm
    have hnames : s.names e.kind = s.names k := by
      rw [Scope.names, Scope.names, s.level_congr hk]
    rw [List.map_cons, List.append_cons]
    by_cases hmem : e.name ∈ s.names k
    · -- a name that is declared already ends both sides
      have hnone : s.define e.name e.type e.kind = none := by
        refine Option.eq_none_iff_forall_ne_some.2 fun s₁ hdefine => ?_
        exact (Scope.define_eq_some_iff.1 hdefine).1 (hnames ▸ hmem)
      have hleft : declared? s (e :: es) = none := by
        rw [declared?_cons, hnone]
        rfl
      have hright : ¬ (s.names k ++ [e.name] ++ es.map VarEntry.name).Nodup := by
        intro h
        have hpair := (List.nodup_append.1 (List.nodup_append.1 h).1).2.2
        exact hpair _ hmem _ List.mem_cons_self rfl
      rw [hleft]
      exact iff_of_false (by simp) hright
    · -- a new name goes over from the declarations to the names of before
      obtain ⟨s₁, hs₁⟩ : ∃ s₁, s₁ = s.add ⟨e.name, e.type, e.kind, s.count e.kind⟩ := ⟨_, rfl⟩
      have hdefine : s.define e.name e.type e.kind = some s₁ :=
        Scope.define_eq_some_iff.2 ⟨hnames ▸ hmem, hs₁⟩
      have hadd : s₁.names k = s.names k ++ [e.name] := by
        rw [hs₁, Scope.names_add, if_pos hk]
      have hnodup : (s₁.names k).Nodup := by
        rw [hadd, List.nodup_append]
        refine ⟨hs, by simp, ?_⟩
        rintro a ha b hb rfl
        exact hmem (List.mem_singleton.1 hb ▸ ha)
      have hstep : declared? s (e :: es) = declared? s₁ es := by
        rw [declared?_cons, hdefine]
        rfl
      rw [hstep, ih (fun e' he' => hes e' (List.mem_cons_of_mem _ he')) hnodup, hadd]

end level

end JackToolchain.Jack
