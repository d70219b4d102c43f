import Mathlib.Data.List.Basic
import Mathlib.Tactic.Common
import Mathlib.Tactic.Ring

/-!
# Segments of a list cut into equal blocks

A list may be stored as a sequence of blocks of one common length. Reading or
overwriting inside one block is reading or overwriting the concatenation at the
corresponding global index.
-/

set_option autoImplicit false

namespace Lamb.Blocks

variable {α : Type}

def segment (xs : List α) (p n : ℕ) : List α := (xs.drop p).take n

def overwrite (xs : List α) (i : ℕ) (new : List α) : List α :=
  xs.take i ++ new ++ xs.drop (i+new.length)

theorem segment_append (xs : List α) (p m n : ℕ) :
    segment xs p m ++ segment xs (p+m) n = segment xs p (m+n) := by
  simp only [segment, List.take_add, List.drop_drop]

theorem overwrite_length (xs new : List α) (i : ℕ) (h : i+new.length ≤ xs.length) :
    (overwrite xs i new).length = xs.length := by
  simp only [overwrite, List.length_append, List.length_take, List.length_drop]
  omega

theorem overwrite_zero (xs new : List α) (h : xs.length ≤ new.length) :
    overwrite xs 0 new = new := by
  simp [overwrite, List.drop_eq_nil_of_le h]

theorem overwrite_end (xs new : List α) : overwrite xs xs.length new = xs ++ new := by
  simp [overwrite]

theorem overwrite_nil (xs : List α) (i : ℕ) : overwrite xs i [] = xs := by
  simp [overwrite]

theorem overwrite_overwrite (xs a b : List α) (i : ℕ) (h : i ≤ xs.length) :
    overwrite (overwrite xs i a) (i+a.length) b = overwrite xs i (a ++ b) := by
  have hi : (xs.take i ++ a).length = i+a.length := by
    simp only [List.length_append, List.length_take]
    omega
  have hd : (overwrite xs i a).drop (i+a.length+b.length) =
      xs.drop (i+(a.length+b.length)) := by
    rw [overwrite, ← List.drop_drop, List.drop_left' hi, List.drop_drop, Nat.add_assoc]
  rw [overwrite, hd, overwrite, List.take_left' hi, overwrite, List.length_append,
    List.append_assoc (xs.take i)]

/-- Overwriting commutes with cutting the list behind the written segment. -/
theorem overwrite_take (xs new : List α) (i n : ℕ) (hi : i ≤ n)
    (h : i+new.length ≤ xs.length) :
    (overwrite xs i new).take (max n (i+new.length)) = overwrite (xs.take n) i new := by
  have hl : (xs.take i ++ new).length = i+new.length := by
    simp only [List.length_append, List.length_take]
    omega
  rw [overwrite, overwrite, List.take_take, Nat.min_eq_left hi, List.take_append,
    hl, List.take_of_length_le (by omega), List.drop_take]
  congr 2
  omega

def Uniform (b : ℕ) (bs : List (List α)) : Prop := ∀ x ∈ bs, x.length = b

theorem Uniform.flatten_length {b : ℕ} {bs : List (List α)} (h : Uniform b bs) :
    bs.flatten.length = bs.length*b := by
  induction bs with
  | nil => simp
  | cons x bs ih =>
    have hx : x.length = b := h x (by simp)
    have hb := ih fun y hy => h y (by simp [hy])
    rw [List.flatten_cons, List.length_append, hx, hb, List.length_cons, Nat.succ_mul, Nat.add_comm]

theorem Uniform.take {b : ℕ} {bs : List (List α)} (h : Uniform b bs) (k : ℕ) :
    Uniform b (bs.take k) := fun x hx => h x (List.mem_of_mem_take hx)

theorem Uniform.front_length {b : ℕ} {bs : List (List α)} (h : Uniform b bs) (k : ℕ)
    (hk : k < bs.length) : (bs.take k).flatten.length = k*b := by
  rw [(h.take k).flatten_length, List.length_take, Nat.min_eq_left (le_of_lt hk)]

theorem flatten_split (bs : List (List α)) (k : ℕ) (hk : k < bs.length) :
    bs.flatten = (bs.take k).flatten ++ (bs[k] ++ (bs.drop (k+1)).flatten) := by
  rw [← List.flatten_cons, ← List.flatten_append, List.getElem_cons_drop, List.take_append_drop]

theorem segment_block {b : ℕ} {bs : List (List α)} (h : Uniform b bs) (k off n : ℕ)
    (hk : k < bs.length) (hn : off+n ≤ b) :
    segment bs.flatten (k*b+off) n = segment bs[k] off n := by
  have hx : bs[k].length = b := h _ (List.getElem_mem hk)
  rw [segment, segment, flatten_split bs k hk, ← List.drop_drop,
    List.drop_left' (h.front_length k hk), List.drop_append_of_le_length (by omega),
    List.take_append_of_le_length]
  rw [List.length_drop]
  omega

theorem overwrite_block {b : ℕ} {bs : List (List α)} (h : Uniform b bs) (k off : ℕ)
    (new : List α) (hk : k < bs.length) (hn : off+new.length ≤ b) :
    (bs.set k (overwrite bs[k] off new)).flatten = overwrite bs.flatten (k*b+off) new := by
  have hx : bs[k].length = b := h _ (List.getElem_mem hk)
  have hf := h.front_length k hk
  have ht : bs.flatten.take (k*b+off) = (bs.take k).flatten ++ bs[k].take off := by
    rw [flatten_split bs k hk, List.take_append, hf,
      List.take_of_length_le (by omega), Nat.add_sub_cancel_left,
      List.take_append_of_le_length (by omega)]
  have hd : bs.flatten.drop (k*b+off+new.length) =
      bs[k].drop (off+new.length) ++ (bs.drop (k+1)).flatten := by
    rw [flatten_split bs k hk, Nat.add_assoc, ← List.drop_drop, List.drop_left' hf,
      List.drop_append_of_le_length (by omega)]
  rw [List.set_eq_take_append_cons_drop, if_pos hk, List.flatten_append, List.flatten_cons,
    overwrite, overwrite, ht, hd]
  simp only [List.append_assoc]

theorem Uniform.set {b : ℕ} {bs : List (List α)} (h : Uniform b bs) (k off : ℕ)
    (new : List α) (hk : k < bs.length) (hn : off+new.length ≤ b) :
    Uniform b (bs.set k (overwrite bs[k] off new)) := by
  intro x hx
  rcases List.mem_or_eq_of_mem_set hx with hm | rfl
  · exact h x hm
  · have hb := h _ (List.getElem_mem hk)
    rw [overwrite_length _ _ _ (by omega), hb]

end Lamb.Blocks
