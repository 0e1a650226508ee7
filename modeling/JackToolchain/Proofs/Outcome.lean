import Mathlib.Data.List.Nodup

/-!
# Results that can be faults

A step can fail, and a search can find nothing.

* `bind_eq_ok_iff`: a chain of steps succeeds exactly if each of them does.
* `map_eq_map_iff`: two steps agree on what is read off their results exactly if they have the same
  fault, or results of which the same is read.
* `mapM_id_eq_ok_iff`, `mapM_id_eq_error_iff`: outcomes are collected exactly if all of them are
  results, and else the first fault is found.
* `mapM_eq_ok_iff`: a step is taken for all elements of a list exactly if it succeeds for each.
* `run_bind_ok`, `run_bind_error`, `run_bind_cases`: where an action goes that can fail and has a
  state.
* `exists_find?_iff`: something is found exactly if it is there.
* `find?_key_eq_some_iff`: among keys without duplicates, what is found is what has the key.
-/

namespace JackToolchain

variable {ε ε' α β γ : Type}

theorem toOption_eq_some_iff {x : Except ε α} {a : α} : x.toOption = some a ↔ x = .ok a := by
  cases x <;> simp [Except.toOption]

theorem isOk_eq_false_iff {x : Except ε α} : x.isOk = false ↔ ∃ e, x = .error e := by
  cases x <;> simp [Except.isOk, Except.toBool]

theorem isOk_mapError (x : Except ε α) (f : ε → ε') : (x.mapError f).isOk = x.isOk := by
  cases x <;> rfl

/-- A step and what follows it succeed exactly if both do. -/
theorem bind_eq_ok_iff {x : Except ε α} {f : α → Except ε β} {b : β} :
    x >>= f = .ok b ↔ ∃ a, x = .ok a ∧ f a = .ok b := by
  cases x with
  | error e => simp [bind, Except.bind]
  | ok a => simp [bind, Except.bind]

/-- Steps that agree on what is read off their results fail alike. -/
theorem map_eq_map_iff {x : Except ε α} {y : Except ε β} {f : α → γ} {g : β → γ} :
    x.map f = y.map g ↔
      (∃ e, x = .error e ∧ y = .error e) ∨ ∃ a b, x = .ok a ∧ y = .ok b ∧ f a = g b := by
  cases x <;> cases y <;> simp [Except.map, eq_comm]

/-- Outcomes are collected exactly if all of them are results. -/
theorem mapM_id_eq_ok_iff {xs : List (Except ε α)} {ys : List α} :
    xs.mapM id = .ok ys ↔ xs = ys.map .ok := by
  induction xs generalizing ys with
  | nil => cases ys <;> simp [pure, Except.pure]
  | cons x xs ih =>
    rw [List.mapM_cons, bind_eq_ok_iff, eq_comm, List.map_eq_cons_iff]
    constructor
    · rintro ⟨y, rfl, h⟩
      obtain ⟨zs, hzs, h⟩ := bind_eq_ok_iff.1 h
      cases h
      exact ⟨y, zs, rfl, rfl, (ih.1 hzs).symm⟩
    · rintro ⟨y, zs, rfl, rfl, h⟩
      exact ⟨y, rfl, bind_eq_ok_iff.2 ⟨zs, ih.2 h.symm, rfl⟩⟩

/-- The first fault among outcomes is the fault of their collection. -/
theorem mapM_id_eq_error_iff {xs : List (Except ε α)} {e : ε} :
    xs.mapM id = .error e ↔ ∃ (ys : List α) (later : List (Except ε α)),
      xs = ys.map .ok ++ .error e :: later := by
  induction xs with
  | nil => simp [pure, Except.pure]
  | cons x xs ih =>
    cases x with
    | error e' =>
      have hfirst : (Except.error e' :: xs).mapM id = .error e' := rfl
      rw [hfirst]
      constructor
      · rintro ⟨⟩
        exact ⟨[], xs, rfl⟩
      · rintro ⟨ys, later, h⟩
        cases ys with
        | nil => rw [Except.error.inj (List.cons.inj h).1]
        | cons y ys => cases (List.cons.inj h).1
    | ok y =>
      have hfirst : (Except.ok y :: xs).mapM id = .error e ↔ xs.mapM id = .error e := by
        rw [List.mapM_cons]
        cases xs.mapM id <;> simp [bind, Except.bind, pure, Except.pure]
      rw [hfirst, ih]
      constructor
      · rintro ⟨ys, later, rfl⟩
        exact ⟨y :: ys, later, rfl⟩
      · rintro ⟨ys, later, h⟩
        cases ys with
        | nil => cases (List.cons.inj h).1
        | cons z ys => exact ⟨ys, later, (List.cons.inj h).2⟩

/-- A step is taken for all elements of a list exactly if it succeeds for each of them. -/
theorem mapM_eq_ok_iff {f : γ → Except ε α} {cs : List γ} {ys : List α} :
    cs.mapM f = .ok ys ↔
      (∀ c ∈ cs, ∃ y, f c = .ok y) ∧ ys = cs.filterMap fun c => (f c).toOption := by
  induction cs generalizing ys with
  | nil => simp [pure, Except.pure, eq_comm]
  | cons c cs ih =>
    rw [List.mapM_cons, bind_eq_ok_iff, List.forall_mem_cons, List.filterMap_cons]
    constructor
    · rintro ⟨y, hy, h⟩
      obtain ⟨zs, hzs, h⟩ := bind_eq_ok_iff.1 h
      obtain ⟨hcs, rfl⟩ := ih.1 hzs
      cases h
      exact ⟨⟨⟨y, hy⟩, hcs⟩, by rw [hy]; rfl⟩
    · rintro ⟨⟨⟨y, hy⟩, hcs⟩, rfl⟩
      exact ⟨y, hy, bind_eq_ok_iff.2 ⟨_, ih.2 ⟨hcs, rfl⟩, by rw [hy]; rfl⟩⟩

/-! ## Actions -/

section bind

variable {σ : Type} {s s' : σ} {a : α} {b : β} {e : ε} {x : ExceptT ε (StateT σ Id) α}
  {f : α → ExceptT ε (StateT σ Id) β}

theorem run_bind_ok (h : x.run.run s = (.ok a, s')) :
    (x >>= f).run.run s = (f a).run.run s' := by
  rw [ExceptT.run_bind, StateT.run_bind, h]
  rfl

theorem run_bind_error (h : x.run.run s = (.error e, s')) :
    (x >>= f).run.run s = (.error e, s') := by
  rw [ExceptT.run_bind, StateT.run_bind, h]
  rfl

/-- An action ends where its first part fails, or where its rest ends. -/
theorem run_bind_cases {r : Except ε β} (h : (x >>= f).run.run s = (r, s')) :
    (∃ e, x.run.run s = (.error e, s') ∧ r = .error e) ∨
      ∃ a s₁, x.run.run s = (.ok a, s₁) ∧ (f a).run.run s₁ = (r, s') := by
  cases hx : x.run.run s with
  | mk r₁ s₁ =>
    cases r₁ with
    | error e =>
      rw [run_bind_error hx] at h
      cases h
      exact .inl ⟨e, rfl, rfl⟩
    | ok a =>
      rw [run_bind_ok hx] at h
      exact .inr ⟨a, s₁, rfl, h⟩

/-- An action that ends well has passed its first part. -/
theorem exists_run_of_bind_ok (h : (x >>= f).run.run s = (.ok b, s')) :
    ∃ a s₁, x.run.run s = (.ok a, s₁) ∧ (f a).run.run s₁ = (.ok b, s') := by
  rcases run_bind_cases h with ⟨e, -, hfault⟩ | h
  · cases hfault
  · exact h

end bind

section search

variable {κ : Type} {xs : List α}

theorem exists_find?_iff {P : α → Prop} [DecidablePred P] :
    (∃ x, xs.find? (P ·) = some x) ↔ ∃ x ∈ xs, P x := by
  rw [← Option.isSome_iff_exists, List.find?_isSome]
  simp only [decide_eq_true_eq]

/-- Among keys without duplicates, what is looked up is what has the key. -/
theorem find?_key_eq_some_iff [DecidableEq κ] {key : α → κ} {x : α} {k : κ}
    (hxs : (xs.map key).Nodup) : xs.find? (key · = k) = some x ↔ x ∈ xs ∧ key x = k := by
  constructor
  · intro hfind
    exact ⟨List.mem_of_find?_eq_some hfind, by simpa using List.find?_some hfind⟩
  · rintro ⟨hx, rfl⟩
    obtain ⟨y, hfind⟩ := (exists_find?_iff (P := (key · = key x))).2 ⟨x, hx, rfl⟩
    have hkey : key y = key x := by simpa using List.find?_some hfind
    rw [hfind, List.inj_on_of_nodup_map hxs (List.mem_of_find?_eq_some hfind) hx hkey]

end search

end JackToolchain
