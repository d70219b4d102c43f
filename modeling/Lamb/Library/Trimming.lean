import Mathlib.Data.List.DropRight
import Mathlib.Data.List.TakeWhile

/-!
# Trimming a list

The elements of a kind `d` are dropped at either end. A search for the first and the last
element that is kept finds the two places where the list is cut: before the first one
stands a run of dropped elements, and behind the last one another.
-/

set_option autoImplicit false

namespace Lamb.Trimming

variable {α : Type*} (d : α → Bool) (l : List α)

def lastIdx? (p : α → Bool) (l : List α) : Option ℕ :=
  (l.reverse.findIdx? p).map (l.length-1-·)

def stripped : List α := (l.dropWhile d).rdropWhile d

theorem findIdx?_kept (head rest : List α) (a : α) (hhead : ∀ x ∈ head, d x) (ha : ¬d a) :
    (head ++ a::rest).findIdx? (fun x => !d x) = some head.length := by
  have hnone : head.findIdx? (fun x => !d x) = none :=
    List.findIdx?_eq_none_iff.mpr fun x hx => by simp [hhead x hx]
  rw [List.findIdx?_append, hnone, List.findIdx?_cons, if_pos (by simp [ha])]
  simp

theorem findIdx?_dropped (h : ∀ x ∈ l, d x) : l.findIdx? (fun x => !d x) = none :=
  List.findIdx?_eq_none_iff.mpr fun x hx => by simp [h x hx]

theorem reverse_cut (init tail : List α) (b : α) :
    (init ++ b::tail).reverse = tail.reverse ++ b::init.reverse := by
  simp

theorem lastIdx?_kept (init tail : List α) (b : α) (hb : ¬d b) (htail : ∀ x ∈ tail, d x) :
    lastIdx? (fun x => !d x) (init ++ b::tail) = some init.length := by
  have hrun : ∀ x ∈ tail.reverse, d x := fun x hx => htail x (List.mem_reverse.mp hx)
  rw [lastIdx?, reverse_cut, findIdx?_kept d _ _ b hrun hb, Option.map_some, List.length_reverse,
    List.length_append, List.length_cons]
  congr 1
  omega

theorem lastIdx?_dropped (h : ∀ x ∈ l, d x) : lastIdx? (fun x => !d x) l = none := by
  rw [lastIdx?, findIdx?_dropped d _ fun x hx => h x (List.mem_reverse.mp hx), Option.map_none]

theorem dropWhile_dropped (h : ∀ x ∈ l, d x) : l.dropWhile d = [] :=
  List.dropWhile_eq_nil_iff.mpr h

/-- A list that is not dropped as a whole is cut before its first kept element. -/
theorem dropWhile_cases :
    (∀ x ∈ l, d x) ∨
      ∃ head a rest, l = head ++ a::rest ∧ (∀ x ∈ head, d x) ∧ ¬d a ∧ l.dropWhile d = a::rest := by
  cases hdrop : l.dropWhile d with
  | nil => exact .inl (List.dropWhile_eq_nil_iff.mp hdrop)
  | cons a rest =>
    have hsplit : l.takeWhile d ++ l.dropWhile d = l := List.takeWhile_append_dropWhile
    have ha := List.head_dropWhile_not d (l := l) (by rw [hdrop]; exact List.cons_ne_nil a rest)
    simp only [hdrop, List.head_cons] at ha
    rw [hdrop] at hsplit
    exact .inr ⟨_, a, rest, hsplit.symm, fun x => List.mem_takeWhile_imp, by simp [ha], rfl⟩

theorem rdropWhile_cases :
    (∀ x ∈ l, d x) ∨
      ∃ init b tail, l = init ++ b::tail ∧ (∀ x ∈ tail, d x) ∧ ¬d b ∧
        l.rdropWhile d = init ++ [b] := by
  rcases dropWhile_cases d l.reverse with h | ⟨head, a, rest, hl, hhead, ha, hdrop⟩
  · exact .inl fun x hx => h x (List.mem_reverse.mpr hx)
  · refine .inr ⟨rest.reverse, a, head.reverse, ?_, ?_, ha, ?_⟩
    · rw [← List.reverse_reverse l, hl]
      simp
    · exact fun x hx => hhead x (List.mem_reverse.mp hx)
    · rw [List.rdropWhile, hdrop, List.reverse_cons]

theorem stripped_nil_iff : stripped d l = [] ↔ ∀ x ∈ l, d x := by
  rw [stripped, List.rdropWhile_eq_nil_iff]
  constructor
  · intro h
    rcases dropWhile_cases d l with hl | ⟨head, a, rest, -, -, ha, hdrop⟩
    · exact hl
    · rw [hdrop] at h
      exact absurd (h a List.mem_cons_self) ha
  · intro h x hx
    rw [dropWhile_dropped d l h] at hx
    cases hx

theorem stripped_between :
    ∃ head tail, l = head ++ stripped d l ++ tail ∧ (∀ x ∈ head, d x) ∧ ∀ x ∈ tail, d x := by
  refine ⟨l.takeWhile d, (l.dropWhile d).rtakeWhile d, ?_, fun x => List.mem_takeWhile_imp,
    fun x => List.mem_rtakeWhile_imp⟩
  rw [stripped, List.append_assoc, List.rdropWhile_append_rtakeWhile,
    List.takeWhile_append_dropWhile]

/-- The cut at the end does not touch the first kept element. -/
theorem dropWhile_stripped : (stripped d l).dropWhile d = stripped d l := by
  rw [stripped]
  rcases dropWhile_cases d l with h | ⟨head, a, rest, -, -, ha, hdrop⟩
  · rw [dropWhile_dropped d l h, List.rdropWhile_nil, List.dropWhile_nil]
  · rw [hdrop]
    obtain ⟨tail, htail⟩ := List.rdropWhile_prefix d (a::rest)
    cases hr : (a::rest).rdropWhile d with
    | nil => rfl
    | cons c more =>
      rw [hr, List.cons_append] at htail
      rw [(List.cons.inj htail).1, List.dropWhile_cons_of_neg ha]

theorem stripped_stripped : stripped d (stripped d l) = stripped d l := by
  rw [stripped, dropWhile_stripped, stripped, List.rdropWhile_idempotent]

theorem dropWhile_run (head rest : List α) (a : α) (hhead : ∀ x ∈ head, d x) (ha : ¬d a) :
    (head ++ a::rest).dropWhile d = a::rest := by
  rw [List.dropWhile_append_of_pos hhead, List.dropWhile_cons_of_neg ha]

theorem dropWhile_dropLast : l.dropLast.dropWhile d = (l.dropWhile d).dropLast := by
  rcases dropWhile_cases d l with h | ⟨head, a, rest, hl, hhead, ha, hdrop⟩
  · rw [dropWhile_dropped d l h, List.dropLast_nil]
    exact dropWhile_dropped d _ fun x hx => h x (l.dropLast_subset hx)
  · rw [hdrop, hl, List.dropLast_append_cons]
    cases rest with
    | nil =>
      rw [List.dropLast_singleton, List.append_nil]
      exact dropWhile_dropped d head hhead
    | cons c rest => exact dropWhile_run d head _ a hhead ha

theorem rdropWhile_run (init tail : List α) (b : α) (hb : ¬d b) (htail : ∀ x ∈ tail, d x) :
    (init ++ b::tail).rdropWhile d = init ++ [b] := by
  have hrun : ∀ x ∈ tail.reverse, d x := fun x hx => htail x (List.mem_reverse.mp hx)
  rw [List.rdropWhile, reverse_cut, dropWhile_run d _ _ b hrun hb, List.reverse_cons,
    List.reverse_reverse]

theorem stripped_eq : (l.rdropWhile d).dropWhile d = stripped d l := by
  rcases dropWhile_cases d l with h | ⟨head, a, rest, hl, hhead, ha, hdrop⟩
  · rw [(stripped_nil_iff d l).mpr h, List.rdropWhile_eq_nil_iff.mpr h, List.dropWhile_nil]
  rcases rdropWhile_cases d (a::rest) with h | ⟨init, b, tail, hl', htail, hb, hdrop'⟩
  · exact absurd (h a List.mem_cons_self) ha
  have hcut : l.rdropWhile d = head ++ stripped d l := by
    rw [stripped, hdrop, hdrop', hl, hl', ← List.append_assoc,
      rdropWhile_run d (head ++ init) tail b hb htail, List.append_assoc]
  rw [hcut, List.dropWhile_append_of_pos hhead, dropWhile_stripped]

end Lamb.Trimming
