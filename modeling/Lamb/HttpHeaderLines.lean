import Lamb.HttpHeaderValues

/-!
# The header lines of a response

One line adds to the frame what it says about the body, or is where the parser gives
up. A block of lines is a fold, and the fold is what the header fields of the message
say, without the parser.
-/

set_option autoImplicit false

namespace Lamb.HttpHeaderLines
open Lamb.ByteString Lamb.Http Lamb.HttpUrl Lamb.HttpMachine Lamb.HttpParser Lamb.Tokens
open Lamb.HttpResponseHead Lamb.HttpHeaderNames Lamb.HttpHeaderValues

variable {cfg : Config}

def crlf : Bytes := [CR, LF]

/-- `i.first << ": " << i.second << "\r\n"`. -/
def headerLine (h : Bytes × Bytes) : Bytes := h.1 ++ ascii ": " ++ h.2 ++ crlf

def LegalHeader (h : Bytes × Bytes) : Prop := LegalName h.1 ∧ ∀ c ∈ h.2, textChar c = true

def bare (v : Bytes) : Bytes := v.dropWhile isBlank

/-- The number that the parser reads from a value of `content-length`. -/
def lengthValue (v : Bytes) : Option ℕ := (lengthFold (bare v)).map Prod.snd

def addHeader (fr : Frame) (h : Bytes × Bytes) : Option Frame :=
  if lowerName h.1 = lengthName then
    match lengthValue h.2, fr.length with
    | some n, none => some { fr with length := some n }
    | _, _ => none
  else if lowerName h.1 = codingName then some (withCoding fr (bare h.2))
  else some fr

section Lines

variable {fr fr' : Frame} {code : ℕ} {h : Bytes × Bytes}

/-- The name, the colon and the blanks in front of the value. -/
theorem goes_line_start (hh : LegalHeader h) :
    Goes cfg (Bound fr code) (h.1 ++ ascii ": " ++ h.2.takeWhile isBlank)
      (Named .headerValueDiscardWs h.1 fr code) := by
  have hsplit : h.1 ++ ascii ": " ++ h.2.takeWhile isBlank =
      (h.1 ++ [58]) ++ ([32] ++ h.2.takeWhile isBlank) := by
    rw [show ascii ": " = [58, 32] by decide]
    simp
  rw [hsplit]
  refine (goes_name hh.1).append (goes_blanks fun c hc => ?_)
  rcases List.mem_cons.mp hc with rfl | hmem
  · rfl
  · exact List.mem_takeWhile_imp hmem

theorem headerLine_split (h : Bytes × Bytes) :
    headerLine h = h.1 ++ ascii ": " ++ h.2.takeWhile isBlank ++ (bare h.2 ++ crlf) := by
  have hv : h.2.takeWhile isBlank ++ bare h.2 = h.2 := List.takeWhile_append_dropWhile
  simp only [headerLine, List.append_assoc]
  rw [← List.append_assoc (h.2.takeWhile isBlank), hv]

/-- A value without its blanks is empty or starts with something else. -/
theorem bare_cases (hh : LegalHeader h) : bare h.2 = [] ∨
    ∃ c rest, bare h.2 = c::rest ∧ isBlank c = false ∧ ∀ ch ∈ c::rest, textChar ch = true := by
  have htext : ∀ ch ∈ bare h.2, textChar ch = true := fun ch hch =>
    hh.2 ch ((List.dropWhile_sublist isBlank).mem hch)
  cases hbare : bare h.2 with
  | nil => exact .inl rfl
  | cons c rest =>
    have hc : isBlank c = false := by
      have hhead := List.head?_dropWhile_not isBlank h.2
      unfold bare at hbare
      rw [hbare] at hhead
      simpa using hhead
    exact .inr ⟨c, rest, rfl, hc, fun ch hch => htext ch (hbare ▸ hch)⟩

theorem goes_value (hh : LegalHeader h) (hadd : addHeader fr h = some fr') :
    Goes cfg (Named .headerValueDiscardWs h.1 fr code) (bare h.2 ++ crlf) (Bound fr' code) := by
  unfold addHeader at hadd
  by_cases hlength : lowerName h.1 = lengthName
  · rw [if_pos hlength] at hadd
    cases hvalue : lengthValue h.2 with
    | none =>
      rw [hvalue] at hadd
      cases hadd
    | some n =>
      obtain ⟨⟨ws, m⟩, hfold, hm⟩ := Option.map_eq_some_iff.mp hvalue
      obtain rfl : m = n := hm
      cases hfr : fr.length with
      | some _ =>
        rw [hvalue, hfr] at hadd
        cases hadd
      | none =>
        rw [hvalue, hfr] at hadd
        obtain rfl := Option.some.inj hadd
        rcases bare_cases hh with hempty | ⟨c, rest, hbare, hblank, htext⟩
        · rw [hempty] at hfold
          cases hfold
        · rw [hbare] at hfold ⊢
          have hnum : isNum c = true := by
            by_contra hnum
            simp only [lengthFold, hnum] at hfold
            cases hfold
          refine (goes_length_start (htext c (.head rest)) hblank hnum hlength hfr).cons ?_
          refine (goes_length_rest rest (fun ch hch => htext ch (.tail c hch)) [c] hfold).append ?_
          exact (goes_value_end (inLength_stable fr code _)).weaken fun v hv =>
            hv.2.bound hv.1 hfold
  · rw [if_neg hlength] at hadd
    by_cases hcoding : lowerName h.1 = codingName
    · rw [if_pos hcoding] at hadd
      obtain rfl := Option.some.inj hadd
      rcases bare_cases hh with hempty | ⟨c, rest, hbare, hblank, htext⟩
      · have hplain : withCoding fr [] = fr := if_neg (by decide)
        rw [hempty, hplain]
        exact goes_empty_value.weaken fun v hv => named_bound hv hlength
      · rw [hbare]
        exact goes_coding_value htext hblank hcoding
    · rw [if_neg hcoding] at hadd
      obtain rfl := Option.some.inj hadd
      rcases bare_cases hh with hempty | ⟨c, rest, hbare, hblank, htext⟩
      · rw [hempty]
        exact goes_empty_value.weaken fun v hv => named_bound hv hlength
      · rw [hbare]
        exact goes_harmless_value htext hblank hlength hcoding

theorem goes_line (hh : LegalHeader h) (hadd : addHeader fr h = some fr') :
    Goes cfg (Bound fr code) (headerLine h) (Bound fr' code) := by
  rw [headerLine_split]
  exact (goes_line_start hh).append (goes_value hh hadd)

/-- A line at which the parser gives up, at the latest at the byte behind it. -/
theorem fails_line (hh : LegalHeader h) (hadd : addHeader fr h = none) {c : UInt8}
    (hc : nonblank c) (bs : Bytes) : Fails cfg (Bound fr code) (headerLine h ++ c::bs) := by
  rw [headerLine_split, List.append_assoc]
  refine (goes_line_start hh).fails ?_
  unfold addHeader at hadd
  by_cases hlength : lowerName h.1 = lengthName
  · rw [if_pos hlength] at hadd
    rcases bare_cases hh with hempty | ⟨d, rest, hbare, hblank, htext⟩
    · rw [hempty]
      exact goes_empty_value.fails <| (fails_empty_length c hc bs).strengthen fun v hv =>
        ⟨hv.state, hv.length.mpr hlength⟩
    · rw [hbare]
      by_cases hstart : isNum d = true ∧ fr.length = none
      · have hfold : lengthFold ([d] ++ rest) = none := by
          cases hfold : lengthFold ([d] ++ rest) with
          | none => rfl
          | some r =>
            have hvalue : lengthValue h.2 = some r.2 := by
              rw [lengthValue, hbare]
              exact congrArg (Option.map Prod.snd) hfold
            rw [hvalue, hstart.2] at hadd
            cases hadd
        rw [List.append_assoc]
        have hd := htext d (.head rest)
        refine (goes_length_start hd hblank hstart.1 hlength hstart.2).fails_cons
          (Fails.append ?_ (crlf ++ c::bs))
        exact fails_length_rest rest (fun ch hch => htext ch (.tail d hch)) [d] hfold
      · have hbad : isNum d = false ∨ fr.length ≠ none := by
          rcases not_and_or.mp hstart with h1 | h1
          · exact .inl (Bool.eq_false_of_not_eq_true h1)
          · exact .inr h1
        exact fails_length_start (htext d (.head rest)) hblank hbad hlength _
  · rw [if_neg hlength] at hadd
    split_ifs at hadd

end Lines

def framing : Frame → List (Bytes × Bytes) → Option Frame
  | fr, [] => some fr
  | fr, h::rest => (addHeader fr h).bind (framing · rest)

section Block

variable {fr fr' : Frame} {code : ℕ} {hs : List (Bytes × Bytes)}

theorem goes_lines (hlegal : ∀ h ∈ hs, LegalHeader h) (h : framing fr hs = some fr') :
    Goes cfg (Bound fr code) (hs.flatMap headerLine) (Bound fr' code) := by
  induction hs generalizing fr with
  | nil =>
    obtain rfl := Option.some.inj h
    exact goes_nil
  | cons h₁ rest ih =>
    obtain ⟨fr₁, hadd, hrest⟩ := Option.bind_eq_some_iff.mp h
    rw [List.flatMap_cons]
    exact (goes_line (hlegal h₁ (.head rest)) hadd).append
      (ih (fun h₂ hmem => hlegal h₂ (.tail h₁ hmem)) hrest)

/-- Every line is followed by a byte that starts a name or a blank line. -/
theorem lines_head (hlegal : ∀ h ∈ hs, LegalHeader h) {c : UInt8} (hc : nonblank c) (bs : Bytes) :
    ∃ d ds, hs.flatMap headerLine ++ c::bs = d::ds ∧ nonblank d := by
  cases hs with
  | nil => exact ⟨c, bs, rfl, hc⟩
  | cons h₁ rest =>
    obtain ⟨hne, hchars⟩ := (hlegal h₁ (.head rest)).1
    cases hname : h₁.1 with
    | nil => exact absurd hname hne
    | cons d ds =>
      refine ⟨d, ds ++ (ascii ": " ++ h₁.2 ++ crlf ++ (rest.flatMap headerLine ++ c::bs)), ?_,
        nameChar_nonblank (hchars d (by rw [hname]; exact .head ds))⟩
      simp only [List.flatMap_cons, headerLine, hname, List.append_assoc, List.cons_append]

theorem fails_lines (hlegal : ∀ h ∈ hs, LegalHeader h) (h : framing fr hs = none) {c : UInt8}
    (hc : nonblank c) (bs : Bytes) :
    Fails cfg (Bound fr code) (hs.flatMap headerLine ++ c::bs) := by
  induction hs generalizing fr with
  | nil => cases h
  | cons h₁ rest ih =>
    have hrest : ∀ h ∈ rest, LegalHeader h := fun h₂ hmem => hlegal h₂ (.tail h₁ hmem)
    rw [List.flatMap_cons, List.append_assoc]
    cases hadd : addHeader fr h₁ with
    | none =>
      obtain ⟨d, ds, heq, hd⟩ := lines_head hrest hc bs
      rw [heq]
      exact fails_line (hlegal h₁ (.head rest)) hadd hd ds
    | some fr₁ =>
      have hlater : framing fr₁ rest = none := by
        rw [framing, hadd] at h
        exact h
      exact (goes_line (hlegal h₁ (.head rest)) hadd).fails (ih hrest hlater)

end Block

/-- The values of the `content-length` headers of a block. -/
def lengths (hs : List (Bytes × Bytes)) : List Bytes :=
  (hs.filter fun h => lowerName h.1 = lengthName).map Prod.snd

def announcesChunks (hs : List (Bytes × Bytes)) : Bool :=
  hs.any fun h => decide (lowerName h.1 = codingName) && decide (ChunkedText (bare h.2))

def lengthOf (l : Option ℕ) : List Bytes → Option (Option ℕ)
  | [] => some l
  | v::vs =>
    match lengthValue v, l with
    | some n, none => lengthOf (some n) vs
    | _, _ => none

/-- What the header fields of a message say about its body, without the parser. -/
theorem framing_eq (b : Bool) (l : Option ℕ) (hs : List (Bytes × Bytes)) : framing ⟨b, l⟩ hs =
    (lengthOf l (lengths hs)).map fun l => ⟨b || announcesChunks hs, l⟩ := by
  induction hs generalizing b l with
  | nil => simp [framing, lengths, lengthOf, announcesChunks]
  | cons h rest ih =>
    by_cases hlength : lowerName h.1 = lengthName
    · have hcons : lengths (h::rest) = h.2::lengths rest := by simp [lengths, hlength]
      have hchunks : announcesChunks (h::rest) = announcesChunks rest := by
        have hne : lengthName ≠ codingName := by decide
        simp [announcesChunks, hlength, hne]
      rw [framing, addHeader, if_pos hlength, hcons, hchunks]
      cases hvalue : lengthValue h.2 with
      | none => simp only [lengthOf, hvalue, Option.bind_none, Option.map_none]
      | some n =>
        cases l with
        | none =>
          simp only [lengthOf, hvalue, Option.bind_some]
          exact ih b (some n)
        | some _ => simp only [lengthOf, hvalue, Option.bind_none, Option.map_none]
    · have hcons : lengths (h::rest) = lengths rest := by simp [lengths, hlength]
      rw [framing, addHeader, if_neg hlength, hcons]
      by_cases hcoding : lowerName h.1 = codingName
      · rw [if_pos hcoding]
        by_cases hchunked : ChunkedText (bare h.2)
        · have hchunks : announcesChunks (h::rest) = true := by
            simp [announcesChunks, hcoding, hchunked]
          rw [withCoding, if_pos hchunked, hchunks]
          refine (ih true l).trans ?_
          simp only [Bool.true_or, Bool.or_true]
        · have hchunks : announcesChunks (h::rest) = announcesChunks rest := by
            simp [announcesChunks, hchunked]
          rw [withCoding, if_neg hchunked, hchunks]
          exact ih b l
      · have hchunks : announcesChunks (h::rest) = announcesChunks rest := by
          simp [announcesChunks, hcoding]
        rw [if_neg hcoding, hchunks]
        exact ih b l

end Lamb.HttpHeaderLines
