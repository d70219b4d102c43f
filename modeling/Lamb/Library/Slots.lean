import Mathlib.Algebra.BigOperators.Group.List.Basic
import Mathlib.Data.List.Basic
import Mathlib.Tactic.Abel
import Mathlib.Tactic.Common

/-!
# Tables of slots

A quantity spread over the entries of a table changes by the difference of one
entry when one entry is replaced. Stated without subtraction, the rule holds in
every commutative monoid, for counters and for multisets of owners alike. The
entries other than the replaced one stay. What is said of one slot changes with
its own entry only.
-/

set_option autoImplicit false

namespace Lamb.Slots

theorem sum_set {α M : Type} [AddCommMonoid M] (f : α → M) (l : List α) (i : ℕ) (a b : α)
    (h : l[i]? = some a) : ((l.set i b).map f).sum+f a = (l.map f).sum+f b := by
  induction l generalizing i with
  | nil => simp at h
  | cons x l ih =>
    cases i with
    | zero =>
      obtain rfl : x = a := by simpa using h
      simp only [List.set_cons_zero, List.map_cons, List.sum_cons]
      abel
    | succ i =>
      have hi := ih i (by simpa using h)
      simp only [List.set_cons_succ, List.map_cons, List.sum_cons]
      rw [add_assoc, hi, add_assoc]

theorem mem_set_of_ne {α : Type} {l : List α} {i : ℕ} {a b x : α} (h : l[i]? = some a)
    (hx : x ∈ l) (hne : x ≠ a) : x ∈ l.set i b := by
  obtain ⟨j, hj, rfl⟩ := List.getElem_of_mem hx
  have hij : i ≠ j := by
    rintro rfl
    rw [List.getElem?_eq_getElem hj] at h
    exact hne (Option.some.inj h)
  have hset : (l.set i b)[j]? = some l[j] := by
    rw [List.getElem?_set_ne hij, List.getElem?_eq_getElem hj]
  exact List.mem_of_getElem? hset

theorem mem_set_self {α : Type} {l : List α} {i : ℕ} {a : α} (h : l[i]? = some a) (b : α) :
    b ∈ l.set i b :=
  List.mem_set (List.getElem?_eq_some_iff.mp h).1 b

theorem getElem?_set_cases {α : Type} {l : List α} {i j : ℕ} {a b : α}
    (h : (l.set i b)[j]? = some a) : (j = i ∧ b = a) ∨ (j ≠ i ∧ l[j]? = some a) := by
  by_cases hij : i = j
  · subst hij
    rw [List.getElem?_set_self'] at h
    obtain ⟨_, -, hb⟩ := Option.map_eq_some_iff.mp h
    exact .inl ⟨rfl, hb⟩
  · rw [List.getElem?_set_ne hij] at h
    exact .inr ⟨fun h' => hij h'.symm, h⟩

theorem getElem?_append_cases {α : Type} {l : List α} {j : ℕ} {a b : α}
    (h : (l ++ [b])[j]? = some a) : (j = l.length ∧ b = a) ∨ l[j]? = some a := by
  rw [List.getElem?_append] at h
  split_ifs at h with hj
  · exact .inr h
  · rw [List.getElem?_singleton] at h
    split_ifs at h with hz
    exact .inl ⟨by omega, Option.some.inj h⟩

/-- The slot `i` is filled, and its entry has the property. -/
def InSlot {α : Type} (l : List α) (i : ℕ) (P : α → Prop) : Prop := ∃ a, l[i]? = some a ∧ P a

theorem inSlot_set {α : Type} {l : List α} {i j : ℕ} {a b : α} {P : α → Prop}
    (h : l[i]? = some a) : InSlot (l.set i b) j P ↔ if i = j then P b else InSlot l j P := by
  by_cases hij : i = j
  · subst hij
    have hlt := (List.getElem?_eq_some_iff.mp h).1
    simp only [InSlot, List.getElem?_set_self hlt, Option.some.injEq, exists_eq_left', if_true]
  · simp only [InSlot, List.getElem?_set_ne hij, if_neg hij]

theorem inSlot_of_getElem? {α : Type} {l : List α} {i : ℕ} {a : α} {P : α → Prop}
    (h : l[i]? = some a) : InSlot l i P ↔ P a := by
  simp only [InSlot, h, Option.some.injEq, exists_eq_left']

/-- A replacement that agrees with the old entry on the property. -/
theorem inSlot_set_iff {α : Type} {l : List α} {i j : ℕ} {a b : α} {P : α → Prop}
    (h : l[i]? = some a) (hP : P b ↔ P a) : InSlot (l.set i b) j P ↔ InSlot l j P := by
  rw [inSlot_set h]
  split_ifs with hij
  · subst hij
    rw [hP, inSlot_of_getElem? h]
  · rfl

theorem InSlot.append {α : Type} {l : List α} {i : ℕ} {P : α → Prop} (h : InSlot l i P) (b : α) :
    InSlot (l ++ [b]) i P := by
  obtain ⟨a, ha, hPa⟩ := h
  have hi := (List.getElem?_eq_some_iff.mp ha).1
  exact ⟨a, by rw [List.getElem?_append_left hi, ha], hPa⟩

theorem inSlot_append {α : Type} {l : List α} {i : ℕ} {b : α} {P : α → Prop} (hP : ¬P b) :
    InSlot (l ++ [b]) i P ↔ InSlot l i P := by
  refine ⟨?_, fun h => h.append b⟩
  rintro ⟨a, ha, hPa⟩
  rcases getElem?_append_cases ha with ⟨-, rfl⟩ | ha
  · exact absurd hPa hP
  · exact ⟨a, ha, hPa⟩

end Lamb.Slots
