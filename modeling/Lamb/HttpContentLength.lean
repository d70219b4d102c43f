import Lamb.HttpRequestDump
import Lamb.HttpParams
import Lamb.Library.Separated

/-!
# The length that a dump states

A dump is read as a message: lines up to the first empty one, and the body behind it.
What stands above the ending of a dump comes from the fields of the message, and a field
may bring in lines of its own. The ending states the length of the body itself, so the
message is consistent exactly if nothing above the ending states a length too, or states
that of an empty body.
-/

set_option autoImplicit false

namespace Lamb.HttpContentLength
open Lamb.ByteString Lamb.Http Lamb.CrlfLines Lamb.HttpHeaderLines Lamb.HttpResponseHead
open Lamb.HttpResponseDump Lamb.HttpRequestDump

/-- A header line with the name `content-length` in any letter case. -/
def isLength (line : Bytes) : Bool :=
  decide (58 ∈ line) && decide ((line.takeWhile (· ≠ 58)).map toLower = ascii "content-length")

def readNumber (s : Bytes) : Option ℕ :=
  if s ≠ [] ∧ s.all (fun c => decide (48 ≤ c ∧ c ≤ 57)) then
    some (s.foldl (fun n c => n*10+(c.toNat-48)) 0)
  else none

def lengthOf (line : Bytes) : Option ℕ :=
  readNumber (HttpParams.trim ((line.dropWhile (· ≠ 58)).drop 1))

structure Stated (headers : List Bytes) (n : ℕ) : Prop where
  one : (headers.filter isLength).length ≤ 1
  value : ∀ l ∈ headers, isLength l = true → lengthOf l = some n

/-- The header lines of a text agree with the bytes behind its blank line. -/
def Consistent (text : Bytes) : Prop := Stated (message text).1.tail (message text).2.length

/-- The condition on the lines above the ending. An empty line that a field brings in
ends the head early. -/
def Agrees (above : List Bytes) (body : Bytes) : Prop :=
  match above.dropWhile (· ≠ []) with
  | [] => if body = [] then Stated above.tail 0 else ∀ l ∈ above.tail, isLength l = false
  | _::below =>
    Stated (above.takeWhile (· ≠ [])).tail (unlines below ++ ending body).length

section Numbers

theorem digit_toNat (d : ℕ) (hd : d < 10) : (digit d).toNat-48 = d := by
  revert d
  decide

theorem digit_range (d : ℕ) (hd : d < 10) : 48 ≤ digit d ∧ digit d ≤ 57 := by
  revert d
  decide

theorem decimal_range (n : ℕ) : ∀ c ∈ decimal n, 48 ≤ c ∧ c ≤ 57 := by
  intro c hc
  rw [decimal] at hc
  split_ifs at hc
  · obtain rfl := List.mem_singleton.mp hc
    decide
  · obtain ⟨d, hd, rfl⟩ := List.mem_map.mp (List.mem_reverse.mp hc)
    exact digit_range d (Nat.digits_lt_base (by decide) hd)

theorem decimal_ne_nil (n : ℕ) : decimal n ≠ [] := by
  rw [decimal]
  split_ifs with hn
  · exact List.cons_ne_nil _ _
  · simpa [Nat.digits_eq_nil_iff_eq_zero] using hn

theorem readNumber_decimal (n : ℕ) : readNumber (decimal n) = some n := by
  have hall : (decimal n).all (fun c => decide (48 ≤ c ∧ c ≤ 57)) = true := by
    rw [List.all_eq_true]
    intro c hc
    exact decide_eq_true (decimal_range n c hc)
  rw [readNumber, if_pos ⟨decimal_ne_nil n, hall⟩]
  congr 1
  by_cases hn : n = 0
  · subst hn
    rfl
  · have hback : ∀ a, ∀ d ∈ (Nat.digits 10 n).reverse, a*10+((digit d).toNat-48) = a*10+d := by
      intro a d hd
      rw [digit_toNat d (Nat.digits_lt_base (by decide) (List.mem_reverse.mp hd))]
    rw [decimal, if_neg hn, ← List.map_reverse, List.foldl_map, List.foldl_ext _ _ _ hback,
      digits_value]

end Numbers

section Ending

theorem unbroken_of_not_mem (l : Bytes) (h : 13 ∉ l) : Unbroken l := by
  induction l with
  | nil => trivial
  | cons c l ih =>
    refine (unbroken_cons ?_).mpr (ih (List.not_mem_of_not_mem_cons h))
    rintro rest rfl -
    exact h List.mem_cons_self

theorem dropWhile_none {α : Type} (p : α → Bool) (l : List α) (h : ∀ c ∈ l, p c = false) :
    l.dropWhile p = l := by
  apply List.dropWhile_eq_self_iff.mpr
  intro hpos
  simp [h _ (List.getElem_mem hpos)]

theorem trim_decimal (n : ℕ) : HttpParams.trim (32::decimal n) = decimal n := by
  have hplain : ∀ c ∈ decimal n, decide (c = 32 ∨ c = 9 ∨ c = 13 ∨ c = 10) = false := by
    intro c hc
    obtain ⟨hlow, -⟩ := decimal_range n c hc
    rw [decide_eq_false_iff_not]
    rintro (rfl | rfl | rfl | rfl) <;> exact absurd hlow (by decide)
  have hrev : ∀ c ∈ (decimal n).reverse, decide (c = 32 ∨ c = 9 ∨ c = 13 ∨ c = 10) = false :=
    fun c hc => hplain c (List.mem_reverse.mp hc)
  rw [HttpParams.trim, List.dropWhile_cons_of_pos (by decide), dropWhile_none _ _ hplain,
    dropWhile_none _ _ hrev, List.reverse_reverse]

theorem lengthLine_stated (n : ℕ) :
    isLength (lengthLine n) = true ∧ lengthOf (lengthLine n) = some n := by
  have hline : lengthLine n = ascii "content-length" ++ 58::32::decimal n := by
    have htext : ascii "content-length: " = ascii "content-length" ++ [58, 32] := by decide
    rw [lengthLine, htext, List.append_assoc]
    rfl
  have hno : (58 : UInt8) ∉ ascii "content-length" := by decide
  constructor
  · rw [isLength, hline, Separated.takeWhile_append hno]
    simp only [List.mem_append, List.mem_cons, true_or, or_true, decide_true, Bool.true_and,
      decide_eq_true_eq]
    decide
  · rw [lengthOf, hline, Separated.dropWhile_append hno, List.drop_one, List.tail_cons,
      trim_decimal, readNumber_decimal]

theorem lengthLine_unbroken (n : ℕ) : Unbroken (lengthLine n) ∧ lengthLine n ≠ [] := by
  constructor
  · apply unbroken_of_not_mem
    intro h
    rcases List.mem_append.mp h with h | h
    · exact absurd h (by decide)
    · exact absurd (decimal_range n 13 h).1 (by decide)
  · exact List.append_ne_nil_of_left_ne_nil (by decide) _

theorem message_ending (body : Bytes) :
    message (ending body) = if body = [] then ([], []) else ([lengthLine body.length], body) := by
  rw [ending]
  split_ifs with hbody
  · decide
  · obtain ⟨hline, hne⟩ := lengthLine_unbroken body.length
    exact message_cut [lengthLine body.length] [] (by simpa using hline)
      (by simpa using Ne.symm hne) body

end Ending

section Consistency

variable {above : List Bytes} {body : Bytes}

theorem stated_with_length (headers : List Bytes) (n : ℕ) :
    Stated (headers ++ [lengthLine n]) n ↔ ∀ l ∈ headers, isLength l = false := by
  obtain ⟨hline, hvalue⟩ := lengthLine_stated n
  have hfilter : (headers ++ [lengthLine n]).filter isLength =
      headers.filter isLength ++ [lengthLine n] := by
    rw [List.filter_append, List.filter_singleton, hline]
    rfl
  constructor
  · intro hs l hl
    have hone := hs.one
    rw [hfilter, List.length_append, List.length_singleton] at hone
    have hnone : headers.filter isLength = [] := List.length_eq_zero_iff.mp (by omega)
    simpa using List.filter_eq_nil_iff.mp hnone l hl
  · intro hno
    have hnone : headers.filter isLength = [] :=
      List.filter_eq_nil_iff.mpr fun l hl => by simp [hno l hl]
    constructor
    · rw [hfilter, hnone]
      exact le_rfl
    · intro l hl hlen
      rcases List.mem_append.mp hl with h | h
      · rw [hno l h] at hlen
        cases hlen
      · obtain rfl := List.mem_singleton.mp h
        exact hvalue

theorem consistent_iff (hne : above ≠ []) (hlines : ∀ l ∈ above, Unbroken l) :
    Consistent (unlines above ++ ending body) ↔ Agrees above body := by
  by_cases hempty : [] ∈ above
  · obtain ⟨head, below, rfl, hhead⟩ := List.eq_append_cons_of_mem hempty
    have hcut := message_cut head below
      (fun l hl => hlines l (List.mem_append_left _ hl)) hhead (ending body)
    rw [Agrees, Separated.dropWhile_append hhead, Separated.takeWhile_append hhead, Consistent,
      hcut]
  · have hwhole := message_lines above hlines hempty (ending body)
    rw [Agrees, Separated.dropWhile_absent hempty, Consistent, hwhole, message_ending]
    by_cases hbody : body = []
    · simp only [if_pos hbody, List.append_nil, List.length_nil]
    · simp only [if_neg hbody, List.tail_append_of_ne_nil hne]
      exact stated_with_length above.tail body.length

/-- A dump of parts above an ending, each of which may bring in several lines. -/
theorem parts_consistent_iff {parts : List Bytes} (hne : parts ≠ []) (body : Bytes) :
    Consistent (unlines parts ++ ending body) ↔ Agrees (parts.flatMap lines) body := by
  have hunlines : unlines (parts.flatMap lines) = unlines parts := by
    rw [unlines, List.flatMap_assoc]
    apply List.flatMap_congr
    intro part _
    exact unlines_lines part
  have hlines : ∀ l ∈ parts.flatMap lines, Unbroken l := by
    intro l hl
    obtain ⟨part, -, hpart⟩ := List.mem_flatMap.mp hl
    exact lines_unbroken part l hpart
  have habove : parts.flatMap lines ≠ [] := by
    obtain ⟨part, rest, rfl⟩ := List.exists_cons_of_ne_nil hne
    rw [List.flatMap_cons]
    exact List.append_ne_nil_of_left_ne_nil (lines_ne_nil part) _
  rw [← hunlines]
  exact consistent_iff habove hlines

/-- The text of either dump is consistent exactly if the lines above its ending agree
with the body. -/
theorem dump_consistent_iff (methodText : HttpMethod → Bytes) (statusText : ℕ → Bytes)
    (q : HttpRequest) (r : ServerResponse) :
    (Consistent (HttpRequestDump.dump methodText q) ↔
        Agrees ((requestParts methodText q).flatMap lines) q.body) ∧
      (Consistent (HttpResponseDump.dump statusText r) ↔
        Agrees ((responseParts statusText r).flatMap lines) r.body) := by
  constructor
  · rw [request_lines]
    exact parts_consistent_iff (List.cons_ne_nil _ _) q.body
  · rw [response_lines]
    exact parts_consistent_iff (List.cons_ne_nil _ _) r.body

end Consistency

section Plain

def Plain (parts : List Bytes) : Prop := ∀ part ∈ parts, Unbroken part ∧ part ≠ []

theorem agrees_plain {parts : List Bytes} (hp : Plain parts) {body : Bytes} (hbody : body ≠ []) :
    Agrees (parts.flatMap lines) body ↔ ∀ l ∈ parts.tail, isLength l = false := by
  have hsingle : parts.flatMap lines = parts := by
    have hpure : parts.flatMap lines = parts.flatMap fun part => [part] :=
      List.flatMap_congr fun part hpart => lines_of_unbroken part (hp part hpart).1
    rw [hpure, List.flatMap_singleton']
  have hno : [] ∉ parts := fun h => (hp [] h).2 rfl
  rw [hsingle, Agrees, Separated.dropWhile_absent hno]
  simp only [if_neg hbody]

theorem isLength_header (k v : Bytes) (hk : 58 ∉ k) :
    isLength (k ++ 58::v) = decide (k.map toLower = ascii "content-length") := by
  rw [isLength, Separated.takeWhile_append hk]
  simp

theorem connectionLine_other (close : Bool) : isLength (connectionLine close) = false := by
  cases close <;> decide

/-- A plain response with a body agrees with it exactly if the map has no length. -/
theorem response_plain_iff (statusText : ℕ → Bytes) (r : ServerResponse)
    (hp : Plain (responseParts statusText r)) (hkeys : ∀ h ∈ r.headers, 58 ∉ h.1)
    (hbody : r.body ≠ []) :
    Agrees ((responseParts statusText r).flatMap lines) r.body ↔
      ∀ h ∈ r.headers, h.1.map toLower ≠ ascii "content-length" := by
  have hheader : ∀ h ∈ r.headers, isLength (h.1 ++ ascii ": " ++ h.2) =
      decide (h.1.map toLower = ascii "content-length") := by
    intro h hmem
    rw [List.append_assoc]
    exact isLength_header h.1 _ (hkeys h hmem)
  have hcookie : ∀ c, isLength (ascii "Set-Cookie: " ++ c) = false := fun c =>
    (isLength_header (ascii "Set-Cookie") (32::c) (by decide)).trans (by decide)
  rw [agrees_plain hp hbody]
  constructor
  · intro hno h hmem hname
    have hlower : folded h.1 ≠ ascii "connection" := by
      intro hfold
      have hnul : 0 ∉ h.1 := by
        intro h0
        have hz : toLower 0 ∈ ascii "content-length" := hname ▸ List.mem_map.mpr ⟨0, h0, rfl⟩
        exact absurd hz (by decide)
      rw [folded, Separated.takeWhile_absent hnul, hname] at hfold
      exact absurd hfold (by decide)
    have hline := hno (h.1 ++ ascii ": " ++ h.2) (by
      simp only [responseParts, List.cons_append, List.tail_cons, List.mem_append]
      exact Or.inl (Or.inl (List.mem_map.mpr
        ⟨h, List.mem_filter.mpr ⟨hmem, by simp [hlower]⟩, rfl⟩)))
    rw [hheader h hmem, decide_eq_false_iff_not] at hline
    exact hline hname
  · intro hno l hl
    simp only [responseParts, List.cons_append, List.tail_cons, List.mem_append] at hl
    rcases hl with (hl | hl) | hl
    · obtain ⟨h, hmem, rfl⟩ := List.mem_map.mp hl
      rw [hheader h (List.mem_of_mem_filter hmem), decide_eq_false_iff_not]
      exact hno h (List.mem_of_mem_filter hmem)
    · obtain ⟨c, -, rfl⟩ := List.mem_map.mp hl
      exact hcookie c
    · split_ifs at hl
      · cases hl
      · obtain rfl := List.mem_singleton.mp hl
        exact connectionLine_other r.close

/-- A plain request with a body agrees with it, whatever its map says. -/
theorem request_plain (methodText : HttpMethod → Bytes) (q : HttpRequest)
    (hp : Plain (requestParts methodText q)) (hkeys : ∀ h ∈ q.headers, 58 ∉ h.1 ∧ 0 ∉ h.1)
    (hbody : q.body ≠ []) : Agrees ((requestParts methodText q).flatMap lines) q.body := by
  rw [agrees_plain hp hbody]
  intro l hl
  simp only [requestParts, List.cons_append, List.tail_cons, List.mem_append] at hl
  rcases hl with hl | hl
  · split_ifs at hl
    · cases hl
    · obtain rfl := List.mem_singleton.mp hl
      exact connectionLine_other q.close
  · obtain ⟨h, hmem, rfl⟩ := List.mem_map.mp hl
    obtain ⟨hin, hkept⟩ := List.mem_filter.mp hmem
    obtain ⟨hcolon, hnul⟩ := hkeys h hin
    have hname : h.1.map toLower ≠ ascii "content-length" := by
      intro hname
      have hfold : folded h.1 = ascii "content-length" := by
        rw [folded, Separated.takeWhile_absent hnul, hname]
      have hsome : q.body.isEmpty = false := by simpa using hbody
      simp [leavesOut, hfold, hsome] at hkept
    rw [List.append_assoc]
    exact (isLength_header h.1 h.2 hcolon).trans (by simpa using hname)

end Plain

section TwoLengths

def statusOk (_ : ℕ) : Bytes := ascii "OK"

def lengthHeader (body : String) : ServerResponse where
  toHttpResponse := { HttpResponse.new with
    headers := [(ascii "Content-Length", ascii "5")]
    body := ascii body }
  reason := []
  cookies := []

/-- A header of the handler and the dump state two lengths. -/
theorem two_lengths :
    (message (HttpResponseDump.dump statusOk (lengthHeader "hi"))).1.tail =
        [ascii "Content-Length: 5", ascii "connection: close", ascii "content-length: 2"] ∧
      ¬ Consistent (HttpResponseDump.dump statusOk (lengthHeader "hi")) := by
  have hhead : (message (HttpResponseDump.dump statusOk (lengthHeader "hi"))).1.tail =
      [ascii "Content-Length: 5", ascii "connection: close", ascii "content-length: 2"] := by decide
  refine ⟨hhead, ?_⟩
  intro h
  have hone := h.one
  rw [hhead] at hone
  exact absurd hone (by decide)

end TwoLengths

end Lamb.HttpContentLength
