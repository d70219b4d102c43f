import Lamb.HttpParamScan
import Lamb.Library.Trimming

/-!
# Trimming strings

`Trim` and `TrimLeft` cut a string at its first and behind its last character that is no
delimiter. `TrimRight` takes the position of that last character for a length, so the
character is lost with the delimiters behind it. The two one-sided functions still
commute, but together they give less than `Trim` wherever there is anything to keep.
-/

set_option autoImplicit false

namespace Lamb.StringTrim
open Lamb.ByteString Lamb.Http Lamb.HttpParamScan Lamb.Trimming

/-- `str.find_first_not_of(delimit)`, with `none` for `npos`. -/
def findFirstNotOf (str delimit : Bytes) : Option ℕ :=
  str.findIdx? fun c => !delimit.contains c

/-- `str.find_last_not_of(delimit)`. -/
def findLastNotOf (str delimit : Bytes) : Option ℕ :=
  lastIdx? (fun c => !delimit.contains c) str

/-- `StringUtil::Trim`. Nothing is returned if `substr` throws. -/
def trim (str delimit : Bytes) : Option Bytes :=
  match findFirstNotOf str delimit with
  | none => some []
  | some first =>
    -- the source does not check this position
    let last := (findLastNotOf str delimit).getD npos
    substr str first (last-first+1)

/-- `StringUtil::TrimLeft`. -/
def trimLeft (str delimit : Bytes) : Option Bytes :=
  match findFirstNotOf str delimit with
  | none => some []
  -- without a count `substr` takes all that is left
  | some first => substr str first (str.length-first)

/-- `StringUtil::TrimRight`. -/
def trimRight (str delimit : Bytes) : Option Bytes :=
  match findLastNotOf str delimit with
  | none => some []
  | some last => substr str 0 last

section Results

variable (str delimit : Bytes)

theorem substr_middle (head middle tail : Bytes) :
    substr (head ++ (middle ++ tail)) head.length middle.length = some middle := by
  rw [substr, if_pos (by rw [List.length_append]; omega), List.drop_left, List.take_left]

theorem trimLeft_eq : trimLeft str delimit = some (str.dropWhile delimit.contains) := by
  unfold trimLeft findFirstNotOf
  rcases dropWhile_cases delimit.contains str with h | ⟨head, a, rest, hl, hhead, ha, hdrop⟩
  · rw [findIdx?_dropped _ _ h, dropWhile_dropped _ _ h]
  · rw [hdrop, hl, findIdx?_kept _ head rest a hhead ha]
    have hlen : (head ++ a::rest).length-head.length = (a::rest).length := by
      rw [List.length_append]
      omega
    have hcut := substr_middle head (a::rest) []
    rw [List.append_nil] at hcut
    dsimp only
    rw [hlen, hcut]

/-- The last character that is no delimiter is dropped as well. -/
theorem trimRight_eq :
    trimRight str delimit = some (str.rdropWhile delimit.contains).dropLast := by
  unfold trimRight findLastNotOf
  rcases rdropWhile_cases delimit.contains str with h | ⟨init, b, tail, hl, htail, hb, hdrop⟩
  · rw [lastIdx?_dropped _ _ h, List.rdropWhile_eq_nil_iff.mpr h, List.dropLast_nil]
  · rw [hdrop, hl, lastIdx?_kept _ init tail b hb htail, List.dropLast_concat]
    exact substr_middle [] init (b::tail)

theorem trim_eq : trim str delimit = some (stripped delimit.contains str) := by
  unfold trim findFirstNotOf findLastNotOf
  rcases dropWhile_cases delimit.contains str with h | ⟨head, a, rest, hl, hhead, ha, hdrop⟩
  · rw [findIdx?_dropped _ _ h, (stripped_nil_iff _ _).mpr h]
  rcases rdropWhile_cases delimit.contains (a::rest) with
    h | ⟨init, b, tail, hl', htail, hb, hdrop'⟩
  · exact absurd (h a List.mem_cons_self) ha
  have hfirst := findIdx?_kept delimit.contains head rest a hhead ha
  have hlast := lastIdx?_kept delimit.contains (head ++ init) tail b hb htail
  rw [List.append_assoc, ← hl', ← hl] at hlast
  rw [← hl] at hfirst
  have hcount : (head ++ init).length-head.length+1 = (init ++ [b]).length := by
    rw [List.length_append, List.length_append, List.length_singleton]
    omega
  have hcut := substr_middle head (init ++ [b]) tail
  rw [List.append_assoc init, List.singleton_append, ← hl', ← hl] at hcut
  rw [hfirst, hlast, stripped, hdrop, hdrop']
  dsimp only [Option.getD_some]
  rw [hcount, hcut]

/-- The one-sided functions after each other lose the last character of `Trim`. -/
theorem trimRight_trimLeft :
    (trimLeft str delimit >>= fun s => trimRight s delimit) =
      some (stripped delimit.contains str).dropLast := by
  rw [trimLeft_eq, Option.bind_eq_bind, Option.bind_some, trimRight_eq, stripped]

theorem trimLeft_trimRight :
    (trimRight str delimit >>= fun s => trimLeft s delimit) =
      some (stripped delimit.contains str).dropLast := by
  rw [trimRight_eq, Option.bind_eq_bind, Option.bind_some, trimLeft_eq, dropWhile_dropLast,
    stripped_eq]

theorem trim_trim : (trim str delimit >>= fun s => trim s delimit) = trim str delimit := by
  rw [trim_eq, Option.bind_eq_bind, Option.bind_some, trim_eq, stripped_stripped]

theorem trimLeft_trimLeft :
    (trimLeft str delimit >>= fun s => trimLeft s delimit) = trimLeft str delimit := by
  rw [trimLeft_eq, Option.bind_eq_bind, Option.bind_some, trimLeft_eq, List.dropWhile_idempotent]

theorem trim_between :
    ∃ head middle tail, trim str delimit = some middle ∧ str = head ++ middle ++ tail ∧
      (∀ c ∈ head, c ∈ delimit) ∧ ∀ c ∈ tail, c ∈ delimit := by
  obtain ⟨head, tail, hl, hhead, htail⟩ := stripped_between delimit.contains str
  exact ⟨head, _, tail, trim_eq str delimit, hl, fun c hc => List.contains_iff_mem.mp (hhead c hc),
    fun c hc => List.contains_iff_mem.mp (htail c hc)⟩

/-- The trimming of cookie names, which is `Trim` with its default delimiters. -/
theorem trim_default (s : Bytes) : trim s [32, 9, 13, 10] = some (HttpParams.trim s) := by
  have hset : ([32, 9, 13, 10] : Bytes).contains =
      fun c : UInt8 => decide (c = 32 ∨ c = 9 ∨ c = 13 ∨ c = 10) := by
    funext c
    simp
  rw [trim_eq, hset]
  rfl

/-- What the three functions are to satisfy on a string and a set of delimiters. -/
structure TrimsAgree : Prop where
  trimLeft_trimRight : (trimRight str delimit >>= fun s => trimLeft s delimit) = trim str delimit
  trimRight_trimLeft : (trimLeft str delimit >>= fun s => trimRight s delimit) = trim str delimit
  trim_idempotent : (trim str delimit >>= fun s => trim s delimit) = trim str delimit
  trimLeft_idempotent :
    (trimLeft str delimit >>= fun s => trimLeft s delimit) = trimLeft str delimit
  trimRight_idempotent :
    (trimRight str delimit >>= fun s => trimRight s delimit) = trimRight str delimit
  between : ∃ head middle tail, trim str delimit = some middle ∧ str = head ++ middle ++ tail ∧
    (∀ c ∈ head, c ∈ delimit) ∧ ∀ c ∈ tail, c ∈ delimit

/-- They satisfy it exactly where every character is a delimiter. -/
theorem trims_agree_iff : TrimsAgree str delimit ↔ ∀ c ∈ str, c ∈ delimit := by
  have hset : (∀ c ∈ str, c ∈ delimit) ↔ stripped delimit.contains str = [] := by
    rw [stripped_nil_iff]
    exact forall₂_congr fun c _ => List.contains_iff_mem.symm
  rw [hset]
  constructor
  · intro h
    have hlost := h.trimRight_trimLeft
    rw [trimRight_trimLeft, trim_eq] at hlost
    have hlen := congrArg List.length (Option.some.inj hlost)
    rw [List.length_dropLast] at hlen
    exact List.length_eq_zero_iff.mp (by omega)
  · intro h
    have hright : trimRight str delimit = some [] := by
      rw [trimRight_eq, List.rdropWhile_eq_nil_iff.mpr ((stripped_nil_iff _ _).mp h),
        List.dropLast_nil]
    refine ⟨?_, ?_, trim_trim str delimit, trimLeft_trimLeft str delimit, ?_,
      trim_between str delimit⟩
    · rw [trimLeft_trimRight, trim_eq, h, List.dropLast_nil]
    · rw [trimRight_trimLeft, trim_eq, h, List.dropLast_nil]
    · rw [hright]
      rfl

end Results

/-- The last letter is lost. -/
theorem trimRight_loses_letter :
    trimRight (ascii "name ") (ascii " ") = some (ascii "nam") ∧
      ¬ ∀ str delimit, TrimsAgree str delimit := by
  refine ⟨by decide, fun h => ?_⟩
  have hlost := (h (ascii "name ") (ascii " ")).trimLeft_trimRight
  revert hlost
  decide

end Lamb.StringTrim
