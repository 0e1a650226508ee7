import JackToolchain.Files.FileTree
import JackToolchain.Proofs.Outcome

/-!
# Trees with new directories

Making directories puts a directory where nothing was, and leaves everything else as it is.

* `get?_put_of_ne`, `get?_put_self`, `get?_erase_of_ne`, `get?_erase_self`: what lies in a tree behind
  a change of one place.
* `FileTree.Grown`: a tree with more directories than another.
* `grown_makeDirectories`: **making directories only adds directories**.
-/

namespace JackToolchain.Files.FileTree

variable {t t' t'' : FileTree} {here l : Location} {p : FilePath} {n : Node}

theorem lookup_filter_ne {nodes : List (Location × Node)} {k : Location} (h : k ≠ l) :
    (nodes.filter (·.1 ≠ l)).lookup k = nodes.lookup k := by
  induction nodes with
  | nil => rfl
  | cons entry nodes ih =>
    by_cases hentry : entry.1 = l
    · have hk : (k == entry.1) = false := by simpa [hentry] using h
      rw [List.filter_cons_of_neg (by simpa using hentry), ih, List.lookup_cons, hk]
    · rw [List.filter_cons_of_pos (by simpa using hentry), List.lookup_cons, List.lookup_cons, ih]

theorem get?_put_of_ne (t : FileTree) (n : Node) {k : Location} (h : k ≠ l) :
    (t.put l n).get? k = t.get? k := by
  have hne : (k == l) = false := by simpa using h
  unfold get? put
  rw [List.lookup_cons, hne]
  exact congrArg (if k = [] then some .directory else ·) (lookup_filter_ne h)

theorem get?_put_self (hl : l ≠ []) (t : FileTree) (n : Node) : (t.put l n).get? l = some n := by
  unfold get? put
  rw [if_neg hl, List.lookup_cons_self]

theorem get?_erase_of_ne (t : FileTree) {k : Location} (h : k ≠ l) :
    (t.erase l).get? k = t.get? k := by
  unfold get? erase
  exact congrArg (if k = [] then some .directory else ·) (lookup_filter_ne h)

theorem get?_erase_self (hl : l ≠ []) (t : FileTree) : (t.erase l).get? l = none := by
  unfold get? erase
  rw [if_neg hl, List.lookup_eq_none_iff]
  intro entry hentry
  have hne : entry.1 ≠ l := by simpa using (List.mem_filter.1 hentry).2
  simpa using hne.symm

/-- A tree is another one but for new directories. -/
def Grown (t t' : FileTree) : Prop :=
  ∀ l, t'.get? l = t.get? l ∨ t.get? l = none ∧ t'.get? l = some .directory

namespace Grown

theorem refl (t : FileTree) : t.Grown t := fun _ => .inl rfl

theorem trans (h : t.Grown t') (h' : t'.Grown t'') : t.Grown t'' := by
  intro l
  rcases h' l with hl' | ⟨hnone', hl'⟩
  · rw [hl']
    exact h l
  · rcases h l with hl | ⟨-, hl⟩
    · exact .inr ⟨hl ▸ hnone', hl'⟩
    · rw [hnone'] at hl
      cases hl

end Grown

theorem grown_put (h : t.get? l = none) : t.Grown (t.put l .directory) := by
  intro k
  by_cases hk : k = l
  · subst hk
    have hne : k ≠ [] := by
      rintro rfl
      cases h
    exact .inr ⟨h, get?_put_self hne t .directory⟩
  · exact .inl (get?_put_of_ne t .directory hk)

theorem grown_makeDirectory (h : t.makeDirectory here p = .ok t') : t.Grown t' := by
  unfold makeDirectory at h
  dsimp only at h
  split at h
  · obtain ⟨l, -, h⟩ := bind_eq_ok_iff.1 h
    split at h
    · cases h
    · next hnone =>
      cases h
      exact grown_put hnone
  · obtain ⟨l, -, h⟩ := bind_eq_ok_iff.1 h
    cases h

/-- **Making directories only adds directories.** -/
theorem grown_makeDirectories (t : FileTree) (here : Location) (paths : List FilePath) :
    t.Grown (t.makeDirectories here paths).1 := by
  fun_induction makeDirectories t here paths with
  | case1 => exact .refl _
  | case2 => exact .refl _
  | case3 _ _ _ _ hmade => exact grown_makeDirectory hmade
  | case4 _ _ _ _ _ hparents ih =>
    rw [hparents] at ih
    exact ih
  | case5 _ _ _ _ _ hparents _ hmade ih =>
    rw [hparents] at ih
    exact ih.trans (grown_makeDirectory hmade)
  | case6 _ _ _ _ _ hparents _ _ ih =>
    rw [hparents] at ih
    exact ih
  | case7 => exact .refl _

end JackToolchain.Files.FileTree
