import Mathlib.Data.List.Induction
import Mathlib.Data.List.Nodup
import Mathlib.Tactic.Common

/-!
# Trees of paths

A finite tree is a list of its paths with what stands there. The parent of every node is a
container. Nodes without children can be removed, and nothing is left below a path where
nothing stands.
-/

set_option autoImplicit false

namespace Lamb.PathTree

variable {N α : Type} [DecidableEq N]

def child : List N → List N → Option N
  | [], [n] => some n
  | a::p, b::q => if a = b then child p q else none
  | _, _ => none

theorem child_iff (p q : List N) (n : N) : child p q = some n ↔ q = p ++ [n] := by
  induction p generalizing q with
  | nil =>
    match q with
    | [] => simp [child]
    | [m] => simp [child, eq_comm]
    | m::m'::q => simp [child]
  | cons a p ih =>
    cases q with
    | nil => simp [child]
    | cons b q =>
      rw [child]
      split_ifs with h
      · simp [ih, h]
      · simp [Ne.symm h]

structure Tree (N α : Type) (container : α → Prop) where
  entries : List (List N × α)
  unique : (entries.map Prod.fst).Nodup
  rooted : ∀ e ∈ entries, ∀ parent n, e.1 = parent ++ [n] →
    ∃ a, (parent, a) ∈ entries ∧ container a

variable {container : α → Prop}

def Tree.find (t : Tree N α container) (p : List N) : Option α := t.entries.lookup p

def Tree.children (t : Tree N α container) (p : List N) : List N :=
  (t.entries.map Prod.fst).filterMap (child p)

section Lookup

variable {t : Tree N α container} {p q : List N} {n : N} {a : α}

theorem find_iff : t.find p = some a ↔ (p, a) ∈ t.entries := by
  rw [Tree.find, List.lookup_eq_some_iff]
  constructor
  · rintro ⟨front, back, heq, -⟩
    rw [heq]
    simp
  · intro hmem
    obtain ⟨front, back, heq⟩ := List.append_of_mem hmem
    refine ⟨front, back, heq, ?_⟩
    intro d hd
    have hunique := t.unique
    rw [heq, List.map_append, List.map_cons, List.nodup_append] at hunique
    simpa using (hunique.2.2 d.1 (List.mem_map_of_mem hd) p (.head _)).symm

theorem mem_paths : p ∈ t.entries.map Prod.fst ↔ t.find p ≠ none := by
  constructor
  · intro h
    obtain ⟨⟨q, a⟩, hmem, rfl⟩ := List.mem_map.mp h
    rw [find_iff.mpr hmem]
    exact Option.some_ne_none a
  · intro h
    obtain ⟨a, ha⟩ := Option.ne_none_iff_exists'.mp h
    exact List.mem_map_of_mem (find_iff.mp ha)

theorem mem_children : n ∈ t.children p ↔ t.find (p ++ [n]) ≠ none := by
  rw [Tree.children, List.mem_filterMap, ← mem_paths]
  constructor
  · rintro ⟨q, hq, hn⟩
    rwa [(child_iff p q n).mp hn] at hq
  · intro h
    exact ⟨p ++ [n], h, (child_iff p _ n).mpr rfl⟩

theorem children_nodup : (t.children p).Nodup := by
  apply List.Nodup.filterMap _ t.unique
  intro q q' n hq hq'
  rw [(child_iff p q n).mp hq, (child_iff p q' n).mp hq']

theorem parent_container (h : t.find (p ++ [n]) ≠ none) : ∃ a, t.find p = some a ∧ container a := by
  obtain ⟨b, hb⟩ := Option.ne_none_iff_exists'.mp h
  obtain ⟨a, ha, hcontainer⟩ := t.rooted _ (find_iff.mp hb) p n rfl
  exact ⟨a, find_iff.mpr ha, hcontainer⟩

theorem leaf_children (hp : t.find p = some a) (ha : ¬container a) : t.children p = [] := by
  rw [List.eq_nil_iff_forall_not_mem]
  intro n hn
  obtain ⟨b, hb, hcontainer⟩ := parent_container (mem_children.mp hn)
  rw [hp] at hb
  cases hb
  exact ha hcontainer

theorem below_none (hp : t.find p = none) (hpq : p <+: q) : t.find q = none := by
  obtain ⟨back, rfl⟩ := hpq
  induction back using List.reverseRecOn with
  | nil => rwa [List.append_nil]
  | append_singleton back n ih =>
    by_contra h
    rw [← List.append_assoc] at h
    obtain ⟨a, ha, -⟩ := parent_container h
    rw [ih] at ha
    cases ha

def Tree.height (t : Tree N α container) : ℕ :=
  (t.entries.map fun e => e.1.length).foldr max 0+1

theorem length_lt_height (t : Tree N α container) {q : List N} (hq : t.find q ≠ none) :
    q.length < t.height := by
  obtain ⟨a, ha⟩ := Option.ne_none_iff_exists'.mp hq
  have hle : ∀ (l : List ℕ), ∀ x ∈ l, x ≤ l.foldr max 0 := by
    intro l
    induction l with
    | nil => simp
    | cons y l ih =>
      intro x hx
      rw [List.foldr_cons]
      rcases List.mem_cons.mp hx with rfl | hx
      · exact Nat.le_max_left _ _
      · exact Nat.le_trans (ih x hx) (Nat.le_max_right _ _)
  have hmem := List.mem_map_of_mem (f := fun e => e.1.length) (find_iff.mp ha)
  exact Nat.lt_succ_of_le (hle _ _ hmem)

theorem exists_height (t : Tree N α container) : ∃ m, ∀ q, t.find q ≠ none → q.length < m :=
  ⟨t.height, fun _ hq => length_lt_height t hq⟩

end Lookup

def Tree.remove (t : Tree N α container) (p : List N) (h : t.children p = []) :
    Tree N α container where
  entries := t.entries.filter fun e => e.1 ≠ p
  unique := (List.filter_sublist.map _).nodup t.unique
  rooted := by
    intro e he parent n heq
    obtain ⟨hmem, -⟩ := List.mem_filter.mp he
    obtain ⟨a, ha, hcontainer⟩ := t.rooted e hmem parent n heq
    refine ⟨a, List.mem_filter.mpr ⟨ha, ?_⟩, hcontainer⟩
    have hne : parent ≠ p := by
      rintro rfl
      have hchild : n ∈ t.children parent := by
        rw [Tree.children, List.mem_filterMap]
        exact ⟨e.1, List.mem_map_of_mem hmem, (child_iff _ _ _).mpr heq⟩
      rw [h] at hchild
      cases hchild
    simpa using hne

theorem find_remove (t : Tree N α container) (p : List N) (h : t.children p = []) (q : List N) :
    (t.remove p h).find q = if q = p then none else t.find q := by
  apply Option.ext
  intro a
  rw [find_iff, Tree.remove, List.mem_filter]
  split_ifs with hq
  · simp [hq]
  · rw [find_iff]
    simp [hq]

end Lamb.PathTree
