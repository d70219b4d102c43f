import Mathlib.Data.List.TakeWhile
import Mathlib.Tactic.Common

/-!
# Text cut at a separator

A list in front of the first separator and the list behind it, found by `takeWhile` and
`dropWhile`, by the offset of the separator, or as the parts of a joined text.
-/

set_option autoImplicit false

namespace Lamb.Separated

variable {α : Type} [DecidableEq α] {sep : α} {xs rest : List α}

theorem takeWhile_append (h : sep ∉ xs) : (xs ++ sep::rest).takeWhile (· ≠ sep) = xs := by
  induction xs with
  | nil => simp
  | cons x xs ih =>
    have hx := List.ne_of_not_mem_cons h
    have hxs := List.not_mem_of_not_mem_cons h
    rw [List.cons_append, List.takeWhile_cons_of_pos (by simpa using Ne.symm hx), ih hxs]

theorem dropWhile_append (h : sep ∉ xs) : (xs ++ sep::rest).dropWhile (· ≠ sep) = sep::rest := by
  induction xs with
  | nil => simp
  | cons x xs ih =>
    have hx := List.ne_of_not_mem_cons h
    have hxs := List.not_mem_of_not_mem_cons h
    rw [List.cons_append, List.dropWhile_cons_of_pos (by simpa using Ne.symm hx), ih hxs]

theorem takeWhile_absent (h : sep ∉ xs) : xs.takeWhile (· ≠ sep) = xs := by
  apply List.takeWhile_eq_self_iff.mpr
  intro x hx
  simpa using fun heq : x = sep => h (heq ▸ hx)

theorem dropWhile_absent (h : sep ∉ xs) : xs.dropWhile (· ≠ sep) = [] := by
  apply List.dropWhile_eq_nil_iff.mpr
  intro x hx
  simpa using fun heq : x = sep => h (heq ▸ hx)

/-- The offset of the first separator is the length of what stands before it. -/
theorem idxOf_append (h : sep ∉ xs) : (xs ++ sep::rest).idxOf? sep = some xs.length := by
  induction xs with
  | nil => simp [List.idxOf?_cons]
  | cons x xs ih =>
    have hx := List.ne_of_not_mem_cons h
    have hxs := List.not_mem_of_not_mem_cons h
    rw [List.cons_append, List.idxOf?_cons, if_neg (by simpa using Ne.symm hx), ih hxs]
    rfl

theorem idxOf_absent (h : sep ∉ xs) : xs.idxOf? sep = none := List.idxOf?_eq_none_iff.mpr h

theorem not_mem_splitOn (xs : List α) : ∀ part ∈ xs.splitOn sep, sep ∉ part := by
  induction xs with
  | nil => simp
  | cons x xs ih =>
    rw [List.splitOn_cons_eq_if_modifyHead]
    by_cases hx : x = sep
    · rw [if_pos (by simp [hx]), List.forall_mem_cons]
      exact ⟨List.not_mem_nil, ih⟩
    · obtain ⟨part, parts, hsplit⟩ := List.exists_cons_of_ne_nil (List.splitOn_ne_nil sep xs)
      rw [hsplit, List.forall_mem_cons] at ih
      rw [if_neg (by simp [hx]), hsplit, List.modifyHead_cons, List.forall_mem_cons]
      exact ⟨List.not_mem_cons_of_ne_of_not_mem (Ne.symm hx) ih.1, ih.2⟩

end Lamb.Separated
