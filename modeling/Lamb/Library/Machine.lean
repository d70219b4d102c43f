import Mathlib.Data.List.TakeWhile
import Mathlib.Tactic.Common

/-!
# Machines that read a list

A machine takes one element of a list after the other. As long as the elements keep it in
its state it has read a piece of the list; a list that does not kill it is such a piece and
what follows from the first other element on.
-/

set_option autoImplicit false

namespace Lamb.Machine

variable {σ α : Type} {step : σ → α → σ} {s dead : σ}

theorem foldl_stay {w : List α} (h : ∀ c ∈ w, step s c = s) : w.foldl step s = s := by
  induction w with
  | nil => rfl
  | cons c w ih =>
    obtain ⟨hc, hw⟩ := List.forall_mem_cons.mp h
    rw [List.foldl_cons, hc]
    exact ih hw

/-- An element that leads to another state, and elements that keep it there. -/
theorem foldl_enter {w : List α} {t : σ} (hne : w ≠ []) (henter : ∀ c ∈ w.head?, step s c = t)
    (hstay : ∀ c ∈ w.tail, step t c = t) : w.foldl step s = t := by
  cases w with
  | nil => exact absurd rfl hne
  | cons c w =>
    rw [List.foldl_cons, henter c rfl]
    exact foldl_stay hstay

theorem foldl_dead (hdead : ∀ c, step dead c = dead) (l : List α) : l.foldl step dead = dead :=
  foldl_stay fun c _ => hdead c

/-- What a machine in a state reads before it leaves the state. -/
theorem split (stay : α → Bool) (l : List α) (hlive : l.foldl step s ≠ dead)
    (hstay : ∀ c, stay c = true → step s c = s) :
    ∃ w, (∀ c ∈ w, stay c = true) ∧
      (l = w ∨ ∃ c rest, l = w ++ c::rest ∧ stay c = false ∧
        rest.foldl step (step s c) ≠ dead) := by
  induction l with
  | nil => exact ⟨[], by simp, .inl rfl⟩
  | cons c l ih =>
    cases hc : stay c with
    | false => exact ⟨[], by simp, .inr ⟨c, l, rfl, hc, hlive⟩⟩
    | true =>
      rw [List.foldl_cons, hstay c hc] at hlive
      obtain ⟨w, hw, hrest⟩ := ih hlive
      refine ⟨c::w, List.forall_mem_cons.mpr ⟨hc, hw⟩, ?_⟩
      rcases hrest with rfl | ⟨d, rest, rfl, hd⟩
      · exact .inl rfl
      · exact .inr ⟨d, rest, rfl, hd⟩

end Lamb.Machine
