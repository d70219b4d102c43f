import Mathlib.Data.List.Nodup
import Mathlib.Data.List.TakeWhile
import Mathlib.Tactic.Common

/-!
# Ordered sets of handles

A set that keeps its elements in the order of a comparator. The elements are
handles, and the comparator looks at what a handle currently stands for, its
view. Searching, inserting and erasing walk to the first element that is not less
than the key, as a search tree does; they do what a set should do as long as the
list is in order at the current views.
-/

set_option autoImplicit false

namespace Lamb.OrderedSet

structure StrictOrder {β : Type} (lt : β → β → Bool) : Prop where
  irrefl : ∀ b, lt b b = false
  trans : ∀ {a b c}, lt a b = true → lt b c = true → lt a c = true

structure LinearLess {β : Type} (lt : β → β → Bool) : Prop extends StrictOrder lt where
  connected : ∀ {a b}, lt a b = false → lt b a = false → a = b

theorem lexicographic {α : Type} [LT α] [DecidableLT α] [DecidableEq α]
    [Std.Irrefl (· < · : α → α → Prop)] [Trans (· < · : α → α → Prop) (· < ·) (· < ·)]
    [Std.Trichotomous (· < · : α → α → Prop)] [Std.Asymm (· < · : α → α → Prop)] :
    LinearLess fun a b : List α => decide (a < b) where
  irrefl := by
    intro b
    exact decide_eq_false (List.lt_irrefl b)
  trans := by
    intro a b c hab hbc
    exact decide_eq_true (List.lt_trans (of_decide_eq_true hab) (of_decide_eq_true hbc))
  connected := by
    intro a b hab hba
    exact Std.Trichotomous.trichotomous a b (of_decide_eq_false hab) (of_decide_eq_false hba)

section Operations
variable {α β : Type} (lt : β → β → Bool) (view : α → β)

def below (key : β) (s : List α) : List α := s.takeWhile fun x => lt (view x) key

def lowerBound (key : β) (s : List α) : List α := s.dropWhile fun x => lt (view x) key

def find (key : β) (s : List α) : Option α :=
  match lowerBound lt view key s with
  | [] => none
  | x::_ => if lt key (view x) then none else some x

def eraseAt (key : β) (s : List α) : List α :=
  below lt view key s ++ (lowerBound lt view key s).tail

def insert (a : α) (s : List α) : List α :=
  match find lt view (view a) s with
  | some _ => s
  | none => below lt view (view a) s ++ a::lowerBound lt view (view a) s

def Ordered (s : List α) : Prop := s.Pairwise fun a b => lt (view a) (view b) = true

end Operations

section Laws
variable {α β : Type} {lt : β → β → Bool} {view : α → β}

theorem below_append (lt : β → β → Bool) (view : α → β) (key : β) (s : List α) :
    below lt view key s ++ lowerBound lt view key s = s :=
  List.takeWhile_append_dropWhile

theorem lt_of_mem_below {key : β} {s : List α} {x : α} (h : x ∈ below lt view key s) :
    lt (view x) key = true :=
  List.mem_takeWhile_imp (p := fun x => lt (view x) key) h

theorem ordered_congr {view' : α → β} {s : List α} (h : ∀ x ∈ s, view' x = view x)
    (hs : Ordered lt view s) : Ordered lt view' s := by
  apply List.Pairwise.imp_of_mem _ hs
  intro a b ha hb hab
  rw [h a ha, h b hb]
  exact hab

variable (order : StrictOrder lt)
include order

theorem Ordered.nodup {s : List α} (hs : Ordered lt view s) : s.Nodup := by
  apply List.Pairwise.imp _ hs
  rintro a b hab rfl
  rw [order.irrefl] at hab
  exact Bool.false_ne_true hab

theorem not_lt_of_mem_lowerBound {key : β} {s : List α} (hs : Ordered lt view s) {x : α}
    (hx : x ∈ lowerBound lt view key s) : lt (view x) key = false := by
  induction s with
  | nil => cases hx
  | cons y s ih =>
    obtain ⟨hy, hs⟩ := List.pairwise_cons.mp hs
    by_cases hk : lt (view y) key = true
    · apply ih hs
      simpa [lowerBound, hk] using hx
    · have hx : x = y ∨ x ∈ s := by simpa [lowerBound, hk] using hx
      by_contra hlt
      apply hk
      rcases hx with rfl | hx
      · simpa using hlt
      · exact order.trans (hy x hx) (by simpa using hlt)

theorem ordered_split {a : α} {pre post : List α} (hs : Ordered lt view (pre ++ a::post)) :
    below lt view (view a) (pre ++ a::post) = pre ∧
      lowerBound lt view (view a) (pre ++ a::post) = a::post := by
  have hpre : ∀ x ∈ pre, lt (view x) (view a) = true := fun x hx =>
    (List.pairwise_append.mp hs).2.2 x hx a List.mem_cons_self
  constructor
  · rw [below, List.takeWhile_append_of_pos hpre]
    simp [order.irrefl]
  · rw [lowerBound, List.dropWhile_append_of_pos hpre]
    simp [order.irrefl]

theorem find_of_mem {s : List α} (hs : Ordered lt view s) {a : α} (ha : a ∈ s) :
    find lt view (view a) s = some a := by
  obtain ⟨pre, post, rfl⟩ := List.append_of_mem ha
  rw [find, (ordered_split order hs).2]
  simp [order.irrefl]

theorem mem_of_find {s : List α} (hs : Ordered lt view s) {key : β} {a : α}
    (h : find lt view key s = some a) :
    a ∈ s ∧ lt (view a) key = false ∧ lt key (view a) = false := by
  unfold find at h
  cases hl : lowerBound lt view key s with
  | nil => simp [hl] at h
  | cons x rest =>
    have hx : x ∈ lowerBound lt view key s := by rw [hl]; exact List.mem_cons_self
    simp only [hl] at h
    split_ifs at h with hkx
    obtain rfl : x = a := Option.some.inj h
    refine ⟨?_, not_lt_of_mem_lowerBound order hs hx, by simpa using hkx⟩
    rw [← below_append lt view key s]
    exact List.mem_append_right _ hx

omit order in
theorem insert_last {a : α} {s : List α} (h : ∀ x ∈ s, lt (view x) (view a) = true) :
    insert lt view a s = s ++ [a] := by
  have hl : lowerBound lt view (view a) s = [] := List.dropWhile_eq_nil_iff.mpr h
  have hb : below lt view (view a) s = s := List.takeWhile_eq_self_iff.mpr h
  rw [insert, find, hl, hb]

omit order in
theorem eraseAt_ordered {s : List α} (hs : Ordered lt view s) (key : β) :
    Ordered lt view (eraseAt lt view key s) := by
  apply List.Pairwise.sublist _ hs
  conv_rhs => rw [← below_append lt view key s]
  exact (List.tail_sublist _).append_left _

theorem mem_eraseAt {s : List α} (hs : Ordered lt view s) {a x : α} (ha : a ∈ s) :
    x ∈ eraseAt lt view (view a) s ↔ x ∈ s ∧ x ≠ a := by
  have hnd := hs.nodup order
  obtain ⟨pre, post, rfl⟩ := List.append_of_mem ha
  obtain ⟨hb, hl⟩ := ordered_split order hs
  have hna : a ∉ pre ∧ a ∉ post := by
    have := List.nodup_middle.mp hnd
    simpa using (List.nodup_cons.mp this).1
  rw [eraseAt, hb, hl, List.tail_cons, List.mem_append, List.mem_append, List.mem_cons]
  constructor
  · rintro (hx | hx)
    · exact ⟨Or.inl hx, fun h => hna.1 (h ▸ hx)⟩
    · exact ⟨Or.inr (Or.inr hx), fun h => hna.2 (h ▸ hx)⟩
  · rintro ⟨hx | hx | hx, hne⟩
    · exact Or.inl hx
    · exact absurd hx hne
    · exact Or.inr hx

def Apart (lt : β → β → Bool) (view : α → β) (a : α) (s : List α) : Prop :=
  ∀ x ∈ s, lt (view x) (view a) = true ∨ lt (view a) (view x) = true

omit order in
theorem mem_of_mem_lowerBound {key : β} {s : List α} {x : α}
    (hx : x ∈ lowerBound lt view key s) : x ∈ s := by
  rw [← below_append lt view key s]
  exact List.mem_append_right _ hx

theorem lt_of_mem_lowerBound {a : α} {s : List α} (hs : Ordered lt view s)
    (ha : Apart lt view a s) {x : α} (hx : x ∈ lowerBound lt view (view a) s) :
    lt (view a) (view x) = true := by
  rcases ha x (mem_of_mem_lowerBound hx) with h | h
  · rw [not_lt_of_mem_lowerBound order hs hx] at h
    exact absurd h Bool.false_ne_true
  · exact h

theorem insert_eq {a : α} {s : List α} (hs : Ordered lt view s) (ha : Apart lt view a s) :
    insert lt view a s = below lt view (view a) s ++ a::lowerBound lt view (view a) s := by
  have hfind : find lt view (view a) s = none := by
    rw [find]
    cases h : lowerBound lt view (view a) s with
    | nil => rfl
    | cons x rest =>
      have hx : x ∈ lowerBound lt view (view a) s := by rw [h]; exact List.mem_cons_self
      simp [lt_of_mem_lowerBound order hs ha hx]
  rw [insert, hfind]

theorem mem_insert {a : α} {s : List α} (hs : Ordered lt view s) (ha : Apart lt view a s)
    {x : α} : x ∈ insert lt view a s ↔ x = a ∨ x ∈ s := by
  have hsplit : x ∈ s ↔ x ∈ below lt view (view a) s ∨ x ∈ lowerBound lt view (view a) s := by
    rw [← List.mem_append, below_append]
  rw [insert_eq order hs ha, hsplit, List.mem_append, List.mem_cons, or_left_comm]

theorem insert_ordered {a : α} {s : List α} (hs : Ordered lt view s)
    (ha : Apart lt view a s) : Ordered lt view (insert lt view a s) := by
  rw [insert_eq order hs ha]
  have hparts : Ordered lt view (below lt view (view a) s ++ lowerBound lt view (view a) s) := by
    rw [below_append]
    exact hs
  obtain ⟨hb, hl, hbl⟩ := List.pairwise_append.mp hparts
  apply List.pairwise_append.mpr
  refine ⟨hb, List.pairwise_cons.mpr ⟨?_, hl⟩, ?_⟩
  · intro x hx
    exact lt_of_mem_lowerBound order hs ha hx
  · intro x hx y hy
    rcases List.mem_cons.mp hy with rfl | hy
    · exact lt_of_mem_below hx
    · exact hbl x hx y hy

end Laws

end Lamb.OrderedSet
