import Lamb.Library.PercentCoding
import Mathlib.Data.List.Forall2

/-!
# Texts of 128-bit addresses

Eight groups of 16 bits are written in hexadecimal between colons. One run of zeros may be
left out, and two colons stand in its place. A text denotes at most one address.
-/

set_option autoImplicit false

namespace Lamb.GroupText
open Lamb.ByteString Lamb.PercentCoding

def readDigits (t : Bytes) (n : ℕ) : Option ℕ :=
  t.foldlM (fun n c => (hexValue c).map (n*16+·)) n

def readGroup (t : Bytes) : Option ℕ :=
  if t = [] ∨ 4 < t.length then none else readDigits t 0

def Reads (parts : List Bytes) (groups : List ℕ) : Prop :=
  List.Forall₂ (fun part group => readGroup part = some group) parts groups

def colon : UInt8 := 58

def joined (parts : List Bytes) : Bytes := [colon].intercalate parts

inductive Denotes : Bytes → List ℕ → Prop
  | full {parts : List Bytes} {groups : List ℕ} (h : Reads parts groups)
      (hlen : groups.length = 8) : Denotes (joined parts) groups
  | compressed {left right : List Bytes} {ls rs : List ℕ} (hl : Reads left ls)
      (hr : Reads right rs) (hlen : ls.length+rs.length < 8) :
      Denotes (joined left ++ [colon, colon] ++ joined right)
        (ls ++ List.replicate (8-(ls.length+rs.length)) 0 ++ rs)

theorem Reads.unique {parts : List Bytes} {gs gs' : List ℕ} (h : Reads parts gs)
    (h' : Reads parts gs') : gs = gs' := by
  induction h generalizing gs' with
  | nil =>
    cases h'
    rfl
  | cons hhead _ ih =>
    cases h' with
    | cons hhead' htail' =>
      rw [hhead] at hhead'
      rw [Option.some.inj hhead', ih htail']

theorem Reads.part_ne_nil {parts : List Bytes} {gs : List ℕ} (h : Reads parts gs) :
    ∀ part ∈ parts, part ≠ [] := by
  induction h with
  | nil => simp
  | cons hhead _ ih =>
    rw [List.forall_mem_cons]
    refine ⟨?_, ih⟩
    rintro rfl
    cases hhead

theorem readDigits_colon (t : Bytes) (n : ℕ) (h : colon ∈ t) : readDigits t n = none := by
  induction t generalizing n with
  | nil => cases h
  | cons c t ih =>
    rw [readDigits, List.foldlM_cons]
    cases hc : hexValue c with
    | none => rfl
    | some v =>
      have hne : colon ≠ c := by
        rintro rfl
        rw [show hexValue colon = none by decide] at hc
        cases hc
      exact ih _ (List.mem_of_ne_of_mem hne h)

theorem Reads.colon_not_mem {parts : List Bytes} {gs : List ℕ} (h : Reads parts gs) :
    ∀ part ∈ parts, colon ∉ part := by
  induction h with
  | nil => simp
  | cons hhead _ ih =>
    rw [List.forall_mem_cons]
    refine ⟨?_, ih⟩
    intro hmem
    rw [readGroup, readDigits_colon _ _ hmem] at hhead
    split_ifs at hhead

def side (parts : List Bytes) : List Bytes := if parts = [] then [[]] else parts

theorem joined_append {xs ys : List Bytes} (hx : xs ≠ []) (hy : ys ≠ []) :
    joined (xs ++ ys) = joined xs ++ colon::joined ys := by
  induction xs with
  | nil => exact absurd rfl hx
  | cons x xs ih =>
    cases xs with
    | nil =>
      obtain ⟨y, ys, rfl⟩ := List.exists_cons_of_ne_nil hy
      simp [joined, List.intercalate]
    | cons x' xs =>
      have h := ih (List.cons_ne_nil _ _)
      simp only [joined, List.intercalate, List.cons_append, List.intersperse_cons_cons,
        List.flatten_cons] at h ⊢
      rw [h]
      simp

theorem mem_joined {parts : List Bytes} {c : UInt8} (h : c ∈ joined parts) :
    c = colon ∨ ∃ part ∈ parts, c ∈ part := by
  induction parts with
  | nil => cases h
  | cons part parts ih =>
    by_cases hparts : parts = []
    · rw [hparts, joined, List.intercalate, List.intersperse_singleton, List.flatten_singleton] at h
      exact Or.inr ⟨part, .head _, h⟩
    · have hcut := joined_append (List.cons_ne_nil part []) hparts
      rw [List.singleton_append] at hcut
      rw [hcut, List.mem_append, List.mem_cons] at h
      rcases h with hhead | rfl | htail
      · exact Or.inr ⟨part, .head _, by simpa [joined, List.intercalate] using hhead⟩
      · exact Or.inl rfl
      · rcases ih htail with hcolon | ⟨p, hp, hc⟩
        · exact Or.inl hcolon
        · exact Or.inr ⟨p, .tail _ hp, hc⟩

theorem joined_compressed (left right : List Bytes) :
    joined left ++ [colon, colon] ++ joined right = joined (side left ++ [[]] ++ side right) := by
  have hside : ∀ parts, joined (side parts) = joined parts := by
    intro parts
    rw [side]
    split_ifs with h
    · rw [h]
      rfl
    · rfl
  have hne : ∀ parts, side parts ≠ [] := by
    intro parts
    rw [side]
    split_ifs with h
    · exact List.cons_ne_nil _ _
    · exact h
  rw [joined_append (by simp) (hne right), joined_append (hne left) (by simp), hside, hside]
  simp [joined, List.intercalate]

theorem Reads.ne_nil {parts : List Bytes} {gs : List ℕ} (h : Reads parts gs)
    (hlen : 0 < gs.length) : parts ≠ [] := by
  rintro rfl
  rw [← List.Forall₂.length_eq h] at hlen
  exact absurd hlen (by decide)

theorem splitOn_full {parts : List Bytes} {gs : List ℕ} (h : Reads parts gs)
    (hlen : 0 < gs.length) : (joined parts).splitOn colon = parts :=
  List.splitOn_intercalate colon h.colon_not_mem (h.ne_nil hlen)

theorem mem_side {parts : List Bytes} {gs : List ℕ} (h : Reads parts gs) :
    ∀ part ∈ side parts, colon ∉ part := by
  rw [side]
  split_ifs
  · simp
  · exact h.colon_not_mem

theorem splitOn_compressed {left right : List Bytes} {ls rs : List ℕ} (hl : Reads left ls)
    (hr : Reads right rs) : (joined left ++ [colon, colon] ++ joined right).splitOn colon =
      side left ++ [[]] ++ side right := by
  rw [joined_compressed]
  apply List.splitOn_intercalate
  · intro part hpart
    rw [List.mem_append, List.mem_append, List.mem_singleton] at hpart
    rcases hpart with (hleft | rfl) | hright
    · exact mem_side hl part hleft
    · exact List.not_mem_nil
    · exact mem_side hr part hright
  · simp

/-- No part of a side is empty, so the side ends at the first empty part. -/
theorem takeWhile_side {parts rest : List Bytes} {gs : List ℕ} (h : Reads parts gs) :
    (side parts ++ []::rest).takeWhile (fun part => !part.isEmpty) = parts := by
  rw [side]
  split_ifs with hnil
  · rw [hnil]
    rfl
  · rw [List.takeWhile_append_of_pos]
    · simp
    · intro part hpart
      simpa using h.part_ne_nil part hpart

theorem compressed_sides {left right left' right' : List Bytes} {ls rs ls' rs' : List ℕ}
    (hl : Reads left ls) (hr : Reads right rs) (hl' : Reads left' ls') (hr' : Reads right' rs')
    (h : side left ++ [[]] ++ side right = side left' ++ [[]] ++ side right') :
    left = left' ∧ right = right' := by
  have hleft := congrArg (List.takeWhile (fun part => !part.isEmpty)) h
  rw [List.append_assoc, List.append_assoc, List.singleton_append, List.singleton_append,
    takeWhile_side hl, takeWhile_side hl'] at hleft
  subst hleft
  have hright := List.append_cancel_left h
  refine ⟨rfl, ?_⟩
  have hside : ∀ {parts parts' : List Bytes} {gs gs' : List ℕ}, Reads parts gs → Reads parts' gs' →
      side parts = side parts' → parts = parts' := by
    intro parts parts' gs gs' hp hp' heq
    have htake := congrArg (fun l => (l ++ [[]]).takeWhile (fun part => !part.isEmpty)) heq
    simp only [takeWhile_side hp, takeWhile_side hp'] at htake
    exact htake
  exact hside hr hr' hright

theorem Denotes.unique {t : Bytes} {gs gs' : List ℕ} (h : Denotes t gs) (h' : Denotes t gs') :
    gs = gs' := by
  have hmixed : ∀ {parts left right : List Bytes} {gs ls rs : List ℕ}, Reads parts gs →
      gs.length = 8 → Reads left ls → Reads right rs →
      joined parts ≠ joined left ++ [colon, colon] ++ joined right := by
    intro parts left right gs ls rs hp hlen hl hr heq
    have hsplit := congrArg (List.splitOn colon) heq
    rw [splitOn_full hp (by omega), splitOn_compressed hl hr] at hsplit
    exact hp.part_ne_nil [] (by rw [hsplit]; simp) rfl
  generalize ht : t = u at h'
  cases h with
  | full hp hlen =>
    cases h' with
    | full hp' hlen' =>
      have hsplit := congrArg (List.splitOn colon) ht
      rw [splitOn_full hp (by omega), splitOn_full hp' (by omega)] at hsplit
      subst hsplit
      exact hp.unique hp'
    | compressed hl hr hlen' => exact absurd ht (hmixed hp hlen hl hr)
  | compressed hl hr hlen =>
    cases h' with
    | full hp' hlen' => exact absurd ht.symm (hmixed hp' hlen' hl hr)
    | compressed hl' hr' hlen' =>
      have hsplit := congrArg (List.splitOn colon) ht
      rw [splitOn_compressed hl hr, splitOn_compressed hl' hr'] at hsplit
      obtain ⟨rfl, rfl⟩ := compressed_sides hl hr hl' hr' hsplit
      rw [hl.unique hl', hr.unique hr']

end Lamb.GroupText
