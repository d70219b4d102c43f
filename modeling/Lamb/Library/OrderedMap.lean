import Lamb.Library.OrderedSet

/-!
# Ordered maps

A map that keeps its entries in the order of a comparator on a view of the keys.
Two keys with one view are the same key to the map, under whichever spelling it
was entered first. Lookups after an assignment or an insertion are as in any map,
whatever the list; after an erasure they are so on a list in order, which all
operations keep.
-/

set_option autoImplicit false

namespace Lamb.OrderedMap
open Lamb.OrderedSet

section Operations
variable {κ ρ β : Type} (lt : ρ → ρ → Bool) (view : κ → ρ)

def find (key : κ) : List (κ × β) → Option β
  | [] => none
  | (k, v)::rest =>
    if lt (view key) (view k) then none
    else if lt (view k) (view key) then find key rest
    else some v

def assign (key : κ) (val : β) : List (κ × β) → List (κ × β)
  | [] => [(key, val)]
  | (k, v)::rest =>
    if lt (view key) (view k) then (key, val)::(k, v)::rest
    else if lt (view k) (view key) then (k, v)::assign key val rest
    else (k, val)::rest

def insert (key : κ) (val : β) : List (κ × β) → List (κ × β)
  | [] => [(key, val)]
  | (k, v)::rest =>
    if lt (view key) (view k) then (key, val)::(k, v)::rest
    else if lt (view k) (view key) then (k, v)::insert key val rest
    else (k, v)::rest

def erase (key : κ) : List (κ × β) → List (κ × β)
  | [] => []
  | (k, v)::rest =>
    if lt (view key) (view k) then (k, v)::rest
    else if lt (view k) (view key) then (k, v)::erase key rest
    else rest

def Sorted (m : List (κ × β)) : Prop := Ordered lt (fun e => view e.1) m

end Operations

attribute [local simp] find assign insert erase

section Laws
variable {κ ρ β : Type} {lt : ρ → ρ → Bool} {view : κ → ρ} (order : LinearLess lt)
include order

theorem lt_ne {a b : ρ} (h : lt a b = true) : a ≠ b := by
  rintro rfl
  rw [order.irrefl] at h
  exact Bool.false_ne_true h

theorem lt_asymm {a b : ρ} (h : lt a b = true) : lt b a = false := by
  by_contra hba
  exact lt_ne order (order.trans h (by simpa using hba)) rfl

theorem trichotomy (a b : ρ) : lt a b = true ∨ lt b a = true ∨ a = b := by
  by_cases hab : lt a b = true
  · exact .inl hab
  · by_cases hba : lt b a = true
    · exact .inr (.inl hba)
    · exact .inr (.inr (order.connected (by simpa using hab) (by simpa using hba)))

omit order in
theorem find_before {key k : κ} {v : β} {rest : List (κ × β)}
    (h : lt (view key) (view k) = true) : find lt view key ((k, v)::rest) = none := by
  rw [find, if_pos h]

theorem find_behind {key k : κ} {v : β} {rest : List (κ × β)}
    (h : lt (view k) (view key) = true) :
    find lt view key ((k, v)::rest) = find lt view key rest := by
  rw [find, if_neg (by simp [lt_asymm order h]), if_pos h]

omit order in
theorem find_congr {k k' : κ} (h : view k = view k') (m : List (κ × β)) :
    find lt view k m = find lt view k' m := by
  induction m with
  | nil => rfl
  | cons e rest ih =>
    obtain ⟨k₁, v⟩ := e
    rw [find, find, h, ih]

theorem find_here {key k : κ} {v : β} {rest : List (κ × β)} (h : view key = view k) :
    find lt view key ((k, v)::rest) = some v := by
  rw [find, h, if_neg (by simp [order.irrefl]), if_neg (by simp [order.irrefl])]

theorem find_assign_same (key k' : κ) (val : β) (m : List (κ × β)) (h : view k' = view key) :
    find lt view k' (assign lt view key val m) = some val := by
  induction m with
  | nil => exact find_here order h
  | cons e rest ih =>
    obtain ⟨k, v⟩ := e
    rw [assign]
    split_ifs with h₁ h₂
    · exact find_here order h
    · rw [find_behind order (by rw [h]; exact h₂), ih]
    · exact find_here order (h.trans (order.connected (by simpa using h₁) (by simpa using h₂)))

theorem find_assign_other (key k' : κ) (val : β) (m : List (κ × β)) (h : view k' ≠ view key) :
    find lt view k' (assign lt view key val m) = find lt view k' m := by
  induction m with
  | nil =>
    rcases trichotomy order (view k') (view key) with hlt | hgt | heq
    · exact find_before hlt
    · exact find_behind order hgt
    · exact absurd heq h
  | cons e rest ih =>
    obtain ⟨k, v⟩ := e
    rw [assign]
    split_ifs with h₁ h₂
    · rcases trichotomy order (view k') (view key) with hlt | hgt | heq
      · rw [find_before hlt, find_before (order.trans hlt h₁)]
      · exact find_behind order hgt
      · exact absurd heq h
    · rcases trichotomy order (view k') (view k) with hlt | hgt | heq
      · rw [find_before hlt, find_before hlt]
      · rw [find_behind order hgt, find_behind order hgt, ih]
      · rw [find_here order heq, find_here order heq]
    · have hk : view key = view k :=
        order.connected (by simpa using h₁) (by simpa using h₂)
      rcases trichotomy order (view k') (view k) with hlt | hgt | heq
      · rw [find_before hlt, find_before hlt]
      · rw [find_behind order hgt, find_behind order hgt]
      · exact absurd (heq.trans hk.symm) h

theorem insert_present (key : κ) (val v : β) (m : List (κ × β))
    (h : find lt view key m = some v) : insert lt view key val m = m := by
  induction m with
  | nil => cases h
  | cons e rest ih =>
    obtain ⟨k, w⟩ := e
    rw [insert]
    split_ifs with h₁ h₂
    · rw [find_before h₁] at h
      cases h
    · rw [find_behind order h₂] at h
      rw [ih h]
    · rfl

theorem insert_absent (key : κ) (val : β) (m : List (κ × β))
    (h : find lt view key m = none) : insert lt view key val m = assign lt view key val m := by
  induction m with
  | nil => rfl
  | cons e rest ih =>
    obtain ⟨k, w⟩ := e
    rw [insert, assign]
    split_ifs with h₁ h₂
    · rfl
    · rw [find_behind order h₂] at h
      rw [ih h]
    · rw [find_here order (order.connected (by simpa using h₁) (by simpa using h₂))] at h
      cases h

theorem find_insert_other (key k' : κ) (val : β) (m : List (κ × β)) (h : view k' ≠ view key) :
    find lt view k' (insert lt view key val m) = find lt view k' m := by
  cases hf : find lt view key m with
  | some v => rw [insert_present order key val v m hf]
  | none => rw [insert_absent order key val m hf, find_assign_other order key k' val m h]

theorem find_insert_same (key k' : κ) (val : β) (m : List (κ × β)) (h : view k' = view key) :
    find lt view k' (insert lt view key val m) = some ((find lt view k' m).getD val) := by
  cases hf : find lt view key m with
  | some v =>
    rw [insert_present order key val v m hf, find_congr h, hf]
    rfl
  | none =>
    rw [insert_absent order key val m hf, find_assign_same order key k' val m h, find_congr h, hf]
    rfl

omit order in
/-- Every key after an assignment was there before or is the new one. -/
theorem key_of_mem_assign (key : κ) (val : β) (m : List (κ × β)) (e : κ × β)
    (h : e ∈ assign lt view key val m) : e.1 = key ∨ ∃ e' ∈ m, e'.1 = e.1 := by
  induction m with
  | nil =>
    rw [assign, List.mem_singleton] at h
    exact .inl (congrArg Prod.fst h)
  | cons d rest ih =>
    obtain ⟨k, v⟩ := d
    rw [assign] at h
    split_ifs at h with h₁ h₂
    · rcases List.mem_cons.mp h with rfl | h
      · exact .inl rfl
      · exact .inr ⟨e, h, rfl⟩
    · rcases List.mem_cons.mp h with rfl | h
      · exact .inr ⟨_, List.mem_cons_self, rfl⟩
      · rcases ih h with h | ⟨e', he', hk⟩
        · exact .inl h
        · exact .inr ⟨e', List.mem_cons_of_mem _ he', hk⟩
    · rcases List.mem_cons.mp h with rfl | h
      · exact .inr ⟨_, List.mem_cons_self, rfl⟩
      · exact .inr ⟨e, List.mem_cons_of_mem _ h, rfl⟩

omit order in
theorem val_of_mem_assign (key : κ) (val : β) (m : List (κ × β)) (e : κ × β)
    (h : e ∈ assign lt view key val m) : e.2 = val ∨ ∃ e' ∈ m, e'.2 = e.2 := by
  induction m with
  | nil =>
    rw [assign, List.mem_singleton] at h
    exact .inl (congrArg Prod.snd h)
  | cons d rest ih =>
    obtain ⟨k, v⟩ := d
    rw [assign] at h
    split_ifs at h with h₁ h₂
    · rcases List.mem_cons.mp h with rfl | h
      · exact .inl rfl
      · exact .inr ⟨e, h, rfl⟩
    · rcases List.mem_cons.mp h with rfl | h
      · exact .inr ⟨_, List.mem_cons_self, rfl⟩
      · rcases ih h with h | ⟨e', he', hv⟩
        · exact .inl h
        · exact .inr ⟨e', List.mem_cons_of_mem _ he', hv⟩
    · rcases List.mem_cons.mp h with rfl | h
      · exact .inl rfl
      · exact .inr ⟨e, List.mem_cons_of_mem _ h, rfl⟩

theorem sorted_assign (key : κ) (val : β) (m : List (κ × β)) (hm : Sorted lt view m) :
    Sorted lt view (assign lt view key val m) := by
  induction m with
  | nil => exact List.pairwise_singleton _ _
  | cons d rest ih =>
    obtain ⟨k, v⟩ := d
    obtain ⟨hk, hrest⟩ := List.pairwise_cons.mp hm
    rw [assign]
    split_ifs with h₁ h₂
    · apply List.pairwise_cons.mpr
      refine ⟨?_, hm⟩
      intro e he
      rcases List.mem_cons.mp he with rfl | he
      · exact h₁
      · exact order.trans h₁ (hk e he)
    · apply List.pairwise_cons.mpr
      refine ⟨?_, ih hrest⟩
      intro e he
      rcases key_of_mem_assign key val rest e he with hkey | ⟨e', he', hkey⟩
      · simp only [hkey]
        exact h₂
      · have := hk e' he'
        simp only [hkey] at this
        exact this
    · exact List.pairwise_cons.mpr ⟨hk, hrest⟩

theorem sorted_insert (key : κ) (val : β) (m : List (κ × β)) (hm : Sorted lt view m) :
    Sorted lt view (insert lt view key val m) := by
  cases hf : find lt view key m with
  | some v =>
    rw [insert_present order key val v m hf]
    exact hm
  | none =>
    rw [insert_absent order key val m hf]
    exact sorted_assign order key val m hm

omit order in
theorem erase_sublist (key : κ) (m : List (κ × β)) : (erase lt view key m).Sublist m := by
  induction m with
  | nil => exact List.Sublist.refl _
  | cons d rest ih =>
    obtain ⟨k, v⟩ := d
    rw [erase]
    split_ifs
    · exact List.Sublist.refl _
    · exact ih.cons_cons _
    · exact List.sublist_cons_self _ _

omit order in
theorem sorted_erase (key : κ) (m : List (κ × β)) (hm : Sorted lt view m) :
    Sorted lt view (erase lt view key m) :=
  List.Pairwise.sublist (erase_sublist key m) hm

omit order in
theorem find_in_front (key : κ) (m : List (κ × β))
    (h : ∀ e ∈ m, lt (view key) (view e.1) = true) : find lt view key m = none := by
  cases m with
  | nil => rfl
  | cons d rest => exact find_before (h d List.mem_cons_self)

theorem find_erase_same (key k' : κ) (m : List (κ × β)) (hm : Sorted lt view m)
    (h : view k' = view key) : find lt view k' (erase lt view key m) = none := by
  induction m with
  | nil => rfl
  | cons d rest ih =>
    obtain ⟨k, v⟩ := d
    obtain ⟨hk, hrest⟩ := List.pairwise_cons.mp hm
    rw [erase]
    split_ifs with h₁ h₂
    · exact find_before (by rw [h]; exact h₁)
    · rw [find_behind order (by rw [h]; exact h₂), ih hrest]
    · have hkey : view key = view k :=
        order.connected (by simpa using h₁) (by simpa using h₂)
      apply find_in_front
      intro e he
      rw [h, hkey]
      exact hk e he

theorem find_erase_other (key k' : κ) (m : List (κ × β)) (hm : Sorted lt view m)
    (h : view k' ≠ view key) : find lt view k' (erase lt view key m) = find lt view k' m := by
  induction m with
  | nil => rfl
  | cons d rest ih =>
    obtain ⟨k, v⟩ := d
    obtain ⟨hk, hrest⟩ := List.pairwise_cons.mp hm
    rw [erase]
    split_ifs with h₁ h₂
    · rfl
    · rcases trichotomy order (view k') (view k) with hlt | hgt | heq
      · rw [find_before hlt, find_before hlt]
      · rw [find_behind order hgt, find_behind order hgt, ih hrest]
      · rw [find_here order heq, find_here order heq]
    · have hkey : view key = view k :=
        order.connected (by simpa using h₁) (by simpa using h₂)
      rcases trichotomy order (view k') (view k) with hlt | hgt | heq
      · rw [find_before hlt]
        apply find_in_front
        intro e he
        exact order.trans hlt (hk e he)
      · rw [find_behind order hgt]
      · exact absurd (heq.trans hkey.symm) h

theorem find_some_iff (key : κ) (val : β) (m : List (κ × β)) (hm : Sorted lt view m) :
    find lt view key m = some val ↔ ∃ k, (k, val) ∈ m ∧ view k = view key := by
  induction m with
  | nil => simp
  | cons d rest ih =>
    obtain ⟨k, v⟩ := d
    obtain ⟨hk, hrest⟩ := List.pairwise_cons.mp hm
    rcases trichotomy order (view key) (view k) with hlt | hgt | heq
    · rw [find_before hlt]
      refine ⟨nofun, ?_⟩
      rintro ⟨k', hmem, hview⟩
      rcases List.mem_cons.mp hmem with hhead | htail
      · obtain ⟨rfl, rfl⟩ := Prod.mk.inj hhead
        exact absurd hview.symm (lt_ne order hlt)
      · exact absurd hview.symm (lt_ne order (order.trans hlt (hk _ htail)))
    · rw [find_behind order hgt, ih hrest]
      refine exists_congr fun k' => ⟨fun h => ⟨.tail _ h.1, h.2⟩, fun h => ?_⟩
      obtain ⟨hmem, hview⟩ := h
      rcases List.mem_cons.mp hmem with hhead | htail
      · obtain ⟨rfl, rfl⟩ := Prod.mk.inj hhead
        exact absurd hview (lt_ne order hgt)
      · exact ⟨htail, hview⟩
    · rw [find_here order heq]
      constructor
      · rintro h
        exact ⟨k, by rw [Option.some.inj h]; exact .head rest, heq.symm⟩
      · rintro ⟨k', hmem, hview⟩
        rcases List.mem_cons.mp hmem with hhead | htail
        · rw [(Prod.mk.inj hhead).2]
        · exact absurd (heq.symm.trans hview.symm) (lt_ne order (hk _ htail))

/-- Entries left out that belong to other keys are not missed. -/
theorem find_filter (key : κ) (p : κ × β → Bool) (m : List (κ × β)) (hm : Sorted lt view m)
    (hp : ∀ e ∈ m, view e.1 = view key → p e = true) :
    find lt view key (m.filter p) = find lt view key m := by
  have hsub : Sorted lt view (m.filter p) := List.Pairwise.sublist List.filter_sublist hm
  refine Option.ext fun val => ?_
  rw [find_some_iff order key val _ hsub, find_some_iff order key val m hm]
  refine exists_congr fun k => ⟨fun h => ⟨List.mem_of_mem_filter h.1, h.2⟩, fun h => ?_⟩
  exact ⟨List.mem_filter.mpr ⟨h.1, hp _ h.1 h.2⟩, h.2⟩

theorem find_foldl_other (key : κ) (f : β → β) (hs m : List (κ × β))
    (h : ∀ e ∈ hs, view e.1 ≠ view key) :
    find lt view key (hs.foldl (fun m e => assign lt view e.1 (f e.2) m) m) =
      find lt view key m := by
  induction hs generalizing m with
  | nil => rfl
  | cons e hs ih =>
    rw [List.foldl_cons, ih _ fun e' he => h e' (.tail e he)]
    exact find_assign_other order e.1 key (f e.2) m (h e (.head hs)).symm

/-- The entries of a map, entered one after the other into another one. -/
theorem find_foldl (key : κ) (f : β → β) (hs m : List (κ × β)) (hsorted : Sorted lt view hs) :
    find lt view key (hs.foldl (fun m e => assign lt view e.1 (f e.2) m) m) =
      ((find lt view key hs).map f).or (find lt view key m) := by
  induction hs generalizing m with
  | nil => rfl
  | cons e hs ih =>
    obtain ⟨k, v⟩ := e
    obtain ⟨hk, hrest⟩ := List.pairwise_cons.mp hsorted
    rw [List.foldl_cons]
    rcases trichotomy order (view key) (view k) with hlt | hgt | heq
    · have hlater : ∀ e ∈ hs, lt (view key) (view e.1) = true := fun e he =>
        order.trans hlt (hk e he)
      rw [find_before hlt, ih _ hrest, find_in_front key hs hlater]
      exact find_assign_other order k key (f v) m (lt_ne order hlt)
    · rw [find_behind order hgt, ih _ hrest]
      exact congrArg _ (find_assign_other order k key (f v) m (lt_ne order hgt).symm)
    · rw [find_here order heq, find_foldl_other order key f hs _ fun e he => by
        rw [heq]
        exact (lt_ne order (hk e he)).symm]
      exact find_assign_same order k key (f v) m heq

theorem insert_perm (key : κ) (val : β) (m : List (κ × β)) (h : ∀ e ∈ m, view e.1 ≠ view key) :
    (insert lt view key val m).Perm ((key, val)::m) := by
  induction m with
  | nil => exact List.Perm.refl _
  | cons d rest ih =>
    obtain ⟨k, v⟩ := d
    rw [insert]
    split_ifs with h₁ h₂
    · exact List.Perm.refl _
    · exact ((ih fun e he => h e (.tail _ he)).cons _).trans (List.Perm.swap _ _ _)
    · exact absurd (order.connected (by simpa using h₂) (by simpa using h₁)) (h _ (.head _))

theorem foldl_insert_sorted (es m : List (κ × β)) (hm : Sorted lt view m) :
    Sorted lt view (es.foldl (fun m e => insert lt view e.1 e.2 m) m) := by
  induction es generalizing m with
  | nil => exact hm
  | cons e es ih => exact ih _ (sorted_insert order e.1 e.2 m hm)

theorem foldl_insert_perm (es m : List (κ × β)) (hes : es.Pairwise fun e d => view d.1 ≠ view e.1)
    (hm : ∀ e ∈ es, ∀ d ∈ m, view d.1 ≠ view e.1) :
    (es.foldl (fun m e => insert lt view e.1 e.2 m) m).Perm (es ++ m) := by
  induction es generalizing m with
  | nil => exact List.Perm.refl _
  | cons e es ih =>
    obtain ⟨he, hes⟩ := List.pairwise_cons.mp hes
    have hperm := insert_perm order e.1 e.2 m (hm e (.head es))
    have hstep := ih (insert lt view e.1 e.2 m) hes (by
      intro e' he' d hd
      rcases List.mem_cons.mp (hperm.mem_iff.mp hd) with rfl | hd
      · exact (he e' he').symm
      · exact hm e' (.tail e he') d hd)
    exact (hstep.trans (hperm.append_left es)).trans List.perm_middle

/-- The entries of a map, entered in any order, give the map back. -/
theorem foldl_insert_entries (es m : List (κ × β)) (hm : Sorted lt view m) (hp : es.Perm m) :
    es.foldl (fun m e => insert lt view e.1 e.2 m) [] = m := by
  have hapart : m.Pairwise fun e d => view d.1 ≠ view e.1 :=
    hm.imp fun hlt => (lt_ne order hlt).symm
  have hes := hapart.perm hp.symm Ne.symm
  have hperm := foldl_insert_perm order es [] hes fun _ _ _ => nofun
  rw [List.append_nil] at hperm
  refine (hperm.trans hp).eq_of_pairwise ?_ (foldl_insert_sorted order es [] .nil) hm
  intro a b _ _ hab hba
  rw [lt_asymm order hab] at hba
  cases hba

end Laws

end Lamb.OrderedMap
