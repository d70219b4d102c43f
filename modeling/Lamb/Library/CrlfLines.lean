import Lamb.Library.ByteString

/-!
# Lines that end in CR LF

A text is cut at every CR LF. A message is read line by line up to the first empty line,
and what stands behind it is the body.
-/

set_option autoImplicit false

namespace Lamb.CrlfLines
open Lamb.ByteString

def lines : Bytes → List Bytes
  | [] => [[]]
  | 13::10::rest => []::lines rest
  | c::rest => (lines rest).modifyHead (c::·)

def unlines (ls : List Bytes) : Bytes := ls.flatMap (· ++ [13, 10])

def messageFrom (line : Bytes) : Bytes → List Bytes × Bytes
  | [] => ([line], [])
  | 13::10::rest =>
    if line = [] then ([], rest)
    else (line::(messageFrom [] rest).1, (messageFrom [] rest).2)
  | c::rest => messageFrom (line ++ [c]) rest

def message (text : Bytes) : List Bytes × Bytes := messageFrom [] text

def Unbroken : Bytes → Prop
  | [] => True
  | 13::10::_ => False
  | _::rest => Unbroken rest

attribute [local simp] lines messageFrom Unbroken

section Cuts

variable {c : UInt8} {l : Bytes}

/-- No line ends in front of `c`. -/
theorem unbroken_cons (hno : ∀ rest, c = 13 → l = 10::rest → False) :
    Unbroken (c::l) ↔ Unbroken l := by
  rw [Unbroken]
  exact hno

theorem lines_cons (hno : ∀ rest, c = 13 → l = 10::rest → False) :
    lines (c::l) = (lines l).modifyHead (c::·) := by
  rw [lines]
  exact hno

theorem messageFrom_cons (line : Bytes) (hno : ∀ rest, c = 13 → l = 10::rest → False) :
    messageFrom line (c::l) = messageFrom (line ++ [c]) l := by
  rw [messageFrom]
  exact hno

end Cuts

theorem lines_ne_nil (text : Bytes) : lines text ≠ [] := by
  induction text using lines.induct with
  | case1 => exact List.cons_ne_nil _ _
  | case2 rest ih => exact List.cons_ne_nil _ _
  | case3 c rest hno ih =>
    obtain ⟨l, ls, hl⟩ := List.exists_cons_of_ne_nil ih
    rw [lines_cons hno, hl, List.modifyHead_cons]
    exact List.cons_ne_nil _ _

theorem unlines_lines (text : Bytes) : unlines (lines text) = text ++ [13, 10] := by
  induction text using lines.induct with
  | case1 => rfl
  | case2 rest ih =>
    rw [lines, unlines, List.flatMap_cons, ← unlines, ih]
    rfl
  | case3 c rest hno ih =>
    obtain ⟨l, ls, hl⟩ := List.exists_cons_of_ne_nil (lines_ne_nil rest)
    have hcons : unlines (lines (c::rest)) = c::unlines (lines rest) := by
      rw [lines_cons hno, hl, List.modifyHead_cons]
      rfl
    rw [hcons, ih, List.cons_append]

theorem lines_first (text l : Bytes) (c : UInt8) (ls : List Bytes)
    (h : lines text = (c::l)::ls) : ∃ rest, text = c::rest := by
  induction text using lines.induct with
  | case1 => simp [lines] at h
  | case2 rest ih => simp [lines] at h
  | case3 d rest hno ih =>
    obtain ⟨l', ls', hl⟩ := List.exists_cons_of_ne_nil (lines_ne_nil rest)
    rw [lines_cons hno, hl, List.modifyHead_cons] at h
    obtain rfl : d = c := (List.cons.inj (List.cons.inj h).1).1
    exact ⟨rest, rfl⟩

theorem lines_unbroken (text : Bytes) : ∀ l ∈ lines text, Unbroken l := by
  induction text using lines.induct with
  | case1 => simp [lines, Unbroken]
  | case2 rest ih =>
    rw [lines, List.forall_mem_cons]
    exact ⟨trivial, ih⟩
  | case3 c rest hno ih =>
    obtain ⟨l, ls, hl⟩ := List.exists_cons_of_ne_nil (lines_ne_nil rest)
    rw [hl, List.forall_mem_cons] at ih
    rw [lines_cons hno, hl, List.modifyHead_cons, List.forall_mem_cons]
    refine ⟨(unbroken_cons ?_).mpr ih.1, ih.2⟩
    rintro l' hc rfl
    obtain ⟨rest', rfl⟩ := lines_first rest l' 10 ls hl
    exact hno rest' hc rfl

theorem lines_of_unbroken (l : Bytes) (hl : Unbroken l) : lines l = [l] := by
  induction l with
  | nil => rfl
  | cons c l ih =>
    have hno : ∀ rest, c = 13 → l = 10::rest → False := by
      rintro rest rfl rfl
      exact hl
    rw [lines_cons hno, ih ((unbroken_cons hno).mp hl), List.modifyHead_cons]

theorem messageFrom_line (l : Bytes) (hl : Unbroken l) (line rest : Bytes) :
    messageFrom line (l ++ 13::10::rest) = messageFrom (line ++ l) (13::10::rest) := by
  induction l generalizing line with
  | nil => rw [List.nil_append, List.append_nil]
  | cons c l ih =>
    have hstart : ∀ rest', c = 13 → l = 10::rest' → False := by
      rintro rest' rfl rfl
      exact hl
    have hnext : ∀ rest', c = 13 → l ++ 13::10::rest = 10::rest' → False := by
      intro rest' hc htail
      cases l with
      | nil => cases htail
      | cons d l => exact hstart l hc (by rw [(List.cons.inj htail).1])
    rw [List.cons_append, messageFrom_cons line hnext, ih ((unbroken_cons hstart).mp hl),
      List.append_assoc, List.singleton_append]

theorem message_cons (l rest : Bytes) (hl : Unbroken l) :
    message (l ++ 13::10::rest) =
      if l = [] then ([], rest) else (l::(message rest).1, (message rest).2) := by
  rw [message, messageFrom_line l hl, List.nil_append, messageFrom]
  rfl

theorem message_lines (ls : List Bytes) (hls : ∀ l ∈ ls, Unbroken l) (hne : [] ∉ ls)
    (rest : Bytes) :
    message (unlines ls ++ rest) = (ls ++ (message rest).1, (message rest).2) := by
  induction ls with
  | nil => rfl
  | cons l ls ih =>
    obtain ⟨hl, hrest⟩ := List.forall_mem_cons.mp hls
    have hl₀ : l ≠ [] := Ne.symm (List.ne_of_not_mem_cons hne)
    have htext : unlines (l::ls) ++ rest = l ++ 13::10::(unlines ls ++ rest) := by
      simp [unlines]
    rw [htext, message_cons l _ hl, if_neg hl₀, ih hrest (List.not_mem_of_not_mem_cons hne)]
    rfl

theorem message_cut (above below : List Bytes) (hls : ∀ l ∈ above, Unbroken l) (hne : [] ∉ above)
    (rest : Bytes) :
    message (unlines (above ++ []::below) ++ rest) = (above, unlines below ++ rest) := by
  have htext : unlines (above ++ []::below) ++ rest =
      unlines above ++ ([] ++ 13::10::(unlines below ++ rest)) := by
    simp [unlines]
  rw [htext, message_lines above hls hne, message_cons [] _ trivial, if_pos rfl, List.append_nil]

end Lamb.CrlfLines
