import Lamb.Library.Separated
import Lamb.LogFormatter

/-!
# Log patterns

A pattern is a sequence of texts, escapes and dates, perhaps with a piece at its end that is
not complete. The scan takes the pieces one by one, whatever follows them.
-/

set_option autoImplicit false

namespace Lamb.LogPattern
open Lamb.ByteString Lamb.Http Lamb.HttpUrl Lamb.Separated Lamb.LogFormatter

inductive Piece where
  | literal (text : Bytes) (h : ('%' : UInt8) ∉ text)
  | escape (c : UInt8) (h : c ≠ ('d' : UInt8))
  | date (format : Option Bytes) (h : ∀ f ∈ format, ('}' : UInt8) ∉ f)

def Piece.text : Piece → Bytes
  | .literal text _ => text
  | .escape c _ => [('%' : UInt8), c]
  | .date none _ => [('%' : UInt8), ('d' : UInt8)]
  | .date (some f) _ => [('%' : UInt8), ('d' : UInt8), ('{' : UInt8)] ++ f ++ [('}' : UInt8)]

inductive Tail where
  | whole
  | lone
  | unclosed (format : Bytes) (h : ('}' : UInt8) ∉ format)

def Tail.text : Tail → Bytes
  | .whole => []
  | .lone => [('%' : UInt8)]
  | .unclosed f _ => [('%' : UInt8), ('d' : UInt8), ('{' : UInt8)] ++ f

def text (pieces : List Piece) (tail : Tail) : Bytes := pieces.flatMap Piece.text ++ tail.text

def Separated (tail : Tail) : List Piece → Prop
  | [] => True
  | .date none _::pieces => (text pieces tail).head? ≠ some ('{' : UInt8) ∧ Separated tail pieces
  | _::pieces => Separated tail pieces

structure Pattern where
  pieces : List Piece
  tail : Tail
  separated : Separated tail pieces

def Pattern.text (d : Pattern) : Bytes := LogPattern.text d.pieces d.tail

def Piece.Known : Piece → Prop
  | .escape c _ => (formatItems.lookup [c]).isSome
  | _ => True

structure Pattern.Complete (d : Pattern) : Prop where
  known : ∀ piece ∈ d.pieces, piece.Known
  tail : d.tail = .whole

def flush (joined : Bytes) : List Item := if joined = [] then [] else [.string joined]

def items : Bytes → List Piece → List Item
  | joined, [] => flush joined
  | joined, .literal text _::pieces => items (joined ++ text) pieces
  | joined, .escape c _::pieces =>
    flush joined ++ (formatItems.lookup [c]).toList ++ items [] pieces
  | joined, .date format _::pieces =>
    flush joined ++ [dateTimeItem (format.getD [])] ++ items [] pieces

/-- What a pattern is compiled to: its items if it is complete and an error otherwise. -/
structure Compiled (d : Pattern) : Prop where
  complete : d.Complete → init d.text = .ok { items := items [] d.pieces, error := false }
  incomplete : ¬d.Complete → ∃ f, init d.text = .ok f ∧ f.error = true

def formats : List Piece → List Bytes
  | [] => []
  | .date format _::pieces => format.getD []::formats pieces
  | _::pieces => formats pieces

def Pattern.EndsBare (d : Pattern) : Prop :=
  ∃ front h back, d.pieces = front ++ .date none h::back ∧ LogPattern.text back d.tail = []

/-- One format for all dates does for each of them: there is one date at most, or no date has
a format, or a single one has a format and this is the default one. -/
def Shared (fs : List Bytes) : Prop :=
  fs.length ≤ 1 ∨ (∀ f ∈ fs, f = []) ∨ fs.filter (fun f => !f.isEmpty) = [ascii "%Y-%m-%d %H:%M:%S"]

inductive Supported (d : Pattern) : Prop
  | unclosed {format : Bytes} {h : ('}' : UInt8) ∉ format} (htail : d.tail = .unclosed format h)
  | unknown (h : ∃ piece ∈ d.pieces, ¬piece.Known) (hend : ¬d.EndsBare)
  | complete (h : d.Complete) (hend : ¬d.EndsBare) (hdates : Shared (formats d.pieces))

section Rounds

variable {p rest : Bytes} {s s' : Scan} {c : UInt8} {r : Except OutOfBounds Scan}

def Ends (p : Bytes) (s : Scan) (r : Except OutOfBounds Scan) : Prop :=
  ∀ n, p.length-s.i ≤ n → loop p n s = r

theorem drop_lt (h : p.drop s.i = c::rest) : s.i < p.length := by
  by_contra hle
  rw [List.drop_eq_nil_of_le (by omega)] at h
  cases h

theorem charAt_drop {i : ℕ} (h : p.drop i = c::rest) : charAt p i = .ok c := by
  have hlt : i < p.length := by
    by_contra hle
    rw [List.drop_eq_nil_of_le (by omega)] at h
    cases h
  rw [List.drop_eq_getElem_cons hlt] at h
  rw [charAt, dif_pos hlt, (List.cons.inj h).1]

theorem drop_behind {i : ℕ} {xs : Bytes} (h : p.drop i = xs ++ rest) :
    p.drop (i+xs.length) = rest := by
  rw [← List.drop_drop, h, List.drop_left]

theorem drop_next {i : ℕ} (h : p.drop i = c::rest) : p.drop (i+1) = rest :=
  @drop_behind _ _ i [c] h

theorem ends_step (hi : s.i < p.length) (herror : s.error = false) (h : step p s = .ok s')
    (hnext : s.i < s'.i) (hr : Ends p s' r) : Ends p s r := by
  intro n hn
  obtain ⟨m, rfl⟩ : ∃ m, n = m+1 := Nat.exists_eq_add_one.mpr (by omega)
  rw [loop, if_pos ⟨hi, by simp [herror]⟩, h]
  exact hr m (by omega)

theorem ends_fail {e : OutOfBounds} (hi : s.i < p.length) (herror : s.error = false)
    (h : step p s = .error e) : Ends p s (.error e) := by
  intro n hn
  obtain ⟨m, rfl⟩ : ∃ m, n = m+1 := Nat.exists_eq_add_one.mpr (by omega)
  rw [loop, if_pos ⟨hi, by simp [herror]⟩, h]
  rfl

theorem ends_done (h : p.length ≤ s.i ∨ s.error = true) : Ends p s (.ok s) := by
  intro n hn
  cases n with
  | zero => rfl
  | succ m =>
    rw [loop, if_neg]
    rintro ⟨hi, herror⟩
    rcases h with hle | htrue
    · omega
    · simp [htrue] at herror

theorem ok_bind {α β : Type} (a : α) (f : α → Except OutOfBounds β) :
    (Except.ok a >>= f) = f a := rfl

theorem step_plain (h : p.drop s.i = c::rest) (hc : c ≠ ('%' : UInt8))
    (hstring : s.parsingString = true) :
    step p s = .ok { s with tmp := s.tmp ++ [c], i := s.i+1 } := by
  rw [step, charAt_drop h, ok_bind]
  rw [if_neg hc, if_pos hstring]
  rfl

/-- The plain text in front of a `%` becomes an entry. -/
theorem step_percent (h : p.drop s.i = ('%' : UInt8)::rest) (hstring : s.parsingString = true) :
    step p s = .ok { s with
      patterns := s.patterns ++ plain s.tmp
      tmp := []
      parsingString := false
      i := s.i+1 } := by
  rw [step, charAt_drop h, ok_bind]
  rw [if_pos rfl, if_pos hstring]
  rfl

theorem step_escape (h : p.drop s.i = c::rest) (hc : c ≠ ('d' : UInt8))
    (hstring : s.parsingString = false) :
    step p s = .ok { s with
      patterns := s.patterns ++ [(1, [c])]
      parsingString := true
      i := s.i+1 } := by
  rw [step, charAt_drop h, ok_bind]
  by_cases hpercent : c = ('%' : UInt8)
  · rw [if_pos hpercent, if_neg (by simp [hstring])]
    rfl
  · change (if c = ('%' : UInt8) then _ else if s.parsingString = true then _ else
      if c ≠ ('d' : UInt8) then _ else _) = _
    rw [if_neg hpercent, if_neg (by simp [hstring]), if_pos hc]
    rfl

/-- A date without a format of its own needs a character behind it. -/
theorem step_bare (h : p.drop s.i = ('d' : UInt8)::c::rest) (hc : c ≠ ('{' : UInt8))
    (hstring : s.parsingString = false) :
    step p s = .ok { s with
      patterns := s.patterns ++ [(1, ascii "d")]
      parsingString := true
      i := s.i+1 } := by
  have hbehind := drop_next h
  have hlt : s.i+1 < p.length := by
    by_contra hle
    rw [List.drop_eq_nil_of_le (by omega)] at hbehind
    cases hbehind
  have hread : p[s.i+1]? ≠ some ('{' : UInt8) := by
    rw [List.drop_eq_getElem_cons hlt] at hbehind
    rw [List.getElem?_eq_getElem hlt, (List.cons.inj hbehind).1]
    simpa using hc
  rw [step, charAt_drop h, ok_bind]
  rw [if_neg (by decide), if_neg (by simp [hstring]), if_neg (by simp), if_pos ⟨hlt, hread⟩]
  rfl

def dated (s : Scan) (f : Bytes) : Scan :=
  { s with
    patterns := s.patterns ++ [(1, ascii "d")]
    parsingString := true
    dateformat := s.dateformat ++ f }

theorem step_brace {f : Bytes} (h : p.drop s.i = ('d' : UInt8)::('{' : UInt8)::(f ++ rest))
    (hf : (f ++ rest).takeWhile (· ≠ ('}' : UInt8)) = f) (hstring : s.parsingString = false) :
    step p s = (charAt p (s.i+1+1+f.length) >>= fun c =>
      if c ≠ ('}' : UInt8) then .ok { dated s f with error := true, i := s.i+1+1+f.length }
      else .ok { dated s f with i := s.i+1+1+f.length+1 }) := by
  have hbrace : p.drop (s.i+1) = ('{' : UInt8)::(f ++ rest) := drop_next h
  have hformat : p.drop (s.i+1+1) = f ++ rest := drop_next hbrace
  have hopen : ¬(s.i+1 < p.length ∧ p[s.i+1]? ≠ some ('{' : UInt8)) := by
    rintro ⟨hlt, hread⟩
    rw [List.drop_eq_getElem_cons hlt] at hbrace
    rw [List.getElem?_eq_getElem hlt, (List.cons.inj hbrace).1] at hread
    exact hread rfl
  rw [step, charAt_drop h, ok_bind, if_neg (by decide), if_neg (by simp [hstring]),
    if_neg (by simp), if_neg hopen]
  simp only [hformat, hf]
  rfl

theorem step_date {f : Bytes} (h : p.drop s.i =
      ('d' : UInt8)::('{' : UInt8)::(f ++ ('}' : UInt8)::rest)) (hf : ('}' : UInt8) ∉ f)
    (hstring : s.parsingString = false) :
    step p s = .ok { dated s f with i := s.i+f.length+3 } := by
  have hclose : p.drop (s.i+1+1+f.length) = ('}' : UInt8)::rest :=
    drop_behind (drop_next (drop_next h))
  rw [step_brace h (takeWhile_append hf) hstring, charAt_drop hclose, ok_bind, if_neg (by simp),
    show s.i+1+1+f.length+1 = s.i+f.length+3 by omega]

/-- The read behind the format sees the terminator of the pattern. -/
theorem step_unclosed {f : Bytes} (h : p.drop s.i = ('d' : UInt8)::('{' : UInt8)::f)
    (hf : ('}' : UInt8) ∉ f) (hstring : s.parsingString = false) :
    step p s = .ok { dated s f with error := true, i := s.i+1+1+f.length } := by
  have hall : p.drop s.i = ('d' : UInt8)::('{' : UInt8)::(f ++ []) := by rw [h, List.append_nil]
  have hlen := congrArg List.length h
  rw [List.length_drop, List.length_cons, List.length_cons] at hlen
  have hend : charAt p (s.i+1+1+f.length) = .ok 0 := by
    rw [charAt, dif_neg (by omega), if_pos (by omega)]
  rw [step_brace hall (by rw [List.append_nil, takeWhile_absent hf]) hstring, hend, ok_bind,
    if_pos (by decide)]

/-- A date at the very end makes the scan skip the terminator of the pattern. -/
theorem step_end (h : p.drop s.i = [('d' : UInt8)]) (hstring : s.parsingString = false) :
    step p s = .error .index := by
  have hlen := congrArg List.length h
  rw [List.length_drop, List.length_singleton] at hlen
  have hempty : p.drop (s.i+1+1) = [] := List.drop_eq_nil_of_le (by omega)
  rw [step, charAt_drop h, ok_bind, if_neg (by decide), if_neg (by simp [hstring]),
    if_neg (by simp), if_neg (by rintro ⟨hlt, -⟩; simp only at hlt; omega)]
  simp only [hempty, List.takeWhile_nil, List.length_nil]
  rw [charAt, dif_neg (by omega), if_neg (by omega)]
  rfl

end Rounds

def after (s : Scan) : Piece → Scan
  | .literal t _ => { s with tmp := s.tmp ++ t, i := s.i+t.length }
  | .escape c _ => { s with
      patterns := s.patterns ++ plain s.tmp ++ [(1, [c])]
      tmp := []
      i := s.i+2 }
  | .date f h => { s with
      patterns := s.patterns ++ plain s.tmp ++ [(1, ascii "d")]
      tmp := []
      dateformat := s.dateformat ++ f.getD []
      i := s.i+(Piece.date f h).text.length }

structure Between (s : Scan) : Prop where
  error : s.error = false
  parsing : s.parsingString = true

def Readable (rest : Bytes) : List Piece → Prop
  | [] => True
  | .date none _::pieces => (∃ c, (pieces.flatMap Piece.text ++ rest).head? = some c ∧
      c ≠ ('{' : UInt8)) ∧ Readable rest pieces
  | _::pieces => Readable rest pieces

section Pieces

variable {p rest : Bytes} {s : Scan} {r : Except OutOfBounds Scan}

theorem after_between (hs : Between s) (piece : Piece) : Between (after s piece) := by
  cases piece <;> exact ⟨hs.error, hs.parsing⟩

theorem after_i (s : Scan) (piece : Piece) : (after s piece).i = s.i+piece.text.length := by
  cases piece <;> rfl

theorem ends_literal (hs : Between s) (t : Bytes) (ht : ('%' : UInt8) ∉ t)
    (h : p.drop s.i = t ++ rest) (hr : Ends p (after s (.literal t ht)) r) : Ends p s r := by
  induction t generalizing s with
  | nil => simpa [after] using hr
  | cons c t ih =>
    have hc : c ≠ ('%' : UInt8) := Ne.symm (List.ne_of_not_mem_cons ht)
    have hstep := step_plain h hc hs.parsing
    refine ends_step (drop_lt h) hs.error hstep (Nat.lt_succ_self _) ?_
    refine ih ⟨hs.error, hs.parsing⟩ (List.not_mem_of_not_mem_cons ht) (drop_next h) ?_
    simpa [after, Nat.add_assoc, Nat.add_comm 1] using hr

/-- A piece that starts with a `%` takes a round for it, and the text so far is an entry. -/
theorem ends_percent (hs : Between s) (h : p.drop s.i = ('%' : UInt8)::rest)
    (hr : Ends p { s with
      patterns := s.patterns ++ plain s.tmp
      tmp := []
      parsingString := false
      i := s.i+1 } r) : Ends p s r :=
  ends_step (drop_lt h) hs.error (step_percent h hs.parsing) (Nat.lt_succ_self _) hr

theorem ends_piece (hs : Between s) (piece : Piece) (h : p.drop s.i = piece.text ++ rest)
    (hbare : ∀ hn, piece = .date none hn → ∃ c, rest.head? = some c ∧ c ≠ ('{' : UInt8))
    (hr : Ends p (after s piece) r) : Ends p s r := by
  cases piece with
  | literal t ht => exact ends_literal hs t ht h hr
  | escape c hc =>
    have hnext : p.drop (s.i+1) = c::rest := drop_next h
    refine ends_percent hs h (ends_step (drop_lt hnext) hs.error (step_escape hnext hc rfl)
      (Nat.lt_succ_self _) ?_)
    simpa [after, hs.parsing] using hr
  | date format hf =>
    cases format with
    | none =>
      obtain ⟨c, hhead, hc⟩ := hbare hf rfl
      obtain ⟨tail, rfl⟩ := List.head?_eq_some_iff.mp hhead
      have hnext : p.drop (s.i+1) = ('d' : UInt8)::c::tail := drop_next h
      refine ends_percent hs h (ends_step (drop_lt hnext) hs.error (step_bare hnext hc rfl)
        (Nat.lt_succ_self _) ?_)
      simpa [after, Piece.text, hs.parsing] using hr
    | some f =>
      have hbrace : p.drop (s.i+1) = ('d' : UInt8)::('{' : UInt8)::(f ++ ('}' : UInt8)::rest) := by
        rw [drop_next h]
        simp
      refine ends_percent hs h (ends_step (drop_lt hbrace) hs.error
        (step_date hbrace (hf f rfl) rfl) (by simp only; omega) ?_)
      have hi : s.i+1+f.length+3 = s.i+(f.length+1+1+1+1) := by omega
      simpa [after, Piece.text, dated, hi, hs.parsing] using hr

theorem ends_pieces (hs : Between s) (pieces : List Piece)
    (h : p.drop s.i = pieces.flatMap Piece.text ++ rest) (hread : Readable rest pieces)
    (hr : Ends p (pieces.foldl after s) r) : Ends p s r := by
  induction pieces generalizing s with
  | nil => exact hr
  | cons piece pieces ih =>
    rw [List.flatMap_cons, List.append_assoc] at h
    have hbehind : p.drop (after s piece).i = pieces.flatMap Piece.text ++ rest := by
      rw [after_i]
      exact drop_behind h
    have htail : Readable rest pieces := by
      cases piece with
      | literal => exact hread
      | escape => exact hread
      | date f => cases f with
        | none => exact hread.2
        | some f => exact hread
    refine ends_piece hs piece h ?_ (ih (after_between hs piece) hbehind htail hr)
    rintro hn rfl
    exact hread.1

theorem foldl_between (hs : Between s) (pieces : List Piece) : Between (pieces.foldl after s) := by
  induction pieces generalizing s with
  | nil => exact hs
  | cons piece pieces ih => exact ih (after_between hs piece)

theorem foldl_i (s : Scan) (pieces : List Piece) :
    (pieces.foldl after s).i = s.i+(pieces.flatMap Piece.text).length := by
  induction pieces generalizing s with
  | nil => rfl
  | cons piece pieces ih =>
    rw [List.foldl_cons, ih, after_i, List.flatMap_cons, List.length_append]
    omega

end Pieces

def entries : Bytes → List Piece → List (ℕ × Bytes)
  | joined, [] => plain joined
  | joined, .literal text _::pieces => entries (joined ++ text) pieces
  | joined, .escape c _::pieces => plain joined ++ (1, [c])::entries [] pieces
  | joined, .date _ _::pieces => plain joined ++ (1, ascii "d")::entries [] pieces

def itemsWith (dateformat : Bytes) : Bytes → List Piece → List Item
  | joined, [] => flush joined
  | joined, .literal text _::pieces => itemsWith dateformat (joined ++ text) pieces
  | joined, .escape c _::pieces =>
    flush joined ++ (formatItems.lookup [c]).toList ++ itemsWith dateformat [] pieces
  | joined, .date _ _::pieces =>
    flush joined ++ [dateTimeItem dateformat] ++ itemsWith dateformat [] pieces

section Entries

theorem foldl_entries (pieces : List Piece) (s : Scan) :
    (pieces.foldl after s).patterns ++ plain (pieces.foldl after s).tmp =
      s.patterns ++ entries s.tmp pieces := by
  induction pieces generalizing s with
  | nil => rfl
  | cons piece pieces ih =>
    rw [List.foldl_cons, ih]
    cases piece <;> simp [after, entries]

theorem foldl_dateformat (pieces : List Piece) (s : Scan) :
    (pieces.foldl after s).dateformat = s.dateformat ++ (formats pieces).flatten := by
  induction pieces generalizing s with
  | nil => simp [formats]
  | cons piece pieces ih =>
    rw [List.foldl_cons, ih]
    cases piece <;> simp [after, formats]

theorem build_plain (dateformat joined : Bytes) (es : List (ℕ × Bytes)) :
    build dateformat (plain joined ++ es) = {
      items := flush joined ++ (build dateformat es).items
      error := (build dateformat es).error } := by
  rw [plain, flush]
  split_ifs
  · rfl
  · rw [List.singleton_append, build, if_pos rfl]
    rfl

theorem escape_ne_date {c : UInt8} (hc : c ≠ ('d' : UInt8)) : [c] ≠ ascii "d" := by
  intro h
  exact hc (List.cons.inj h).1

theorem build_known (dateformat : Bytes) (pieces : List Piece) (joined : Bytes)
    (h : ∀ piece ∈ pieces, piece.Known) : build dateformat (entries joined pieces) =
      { items := itemsWith dateformat joined pieces, error := false } := by
  induction pieces generalizing joined with
  | nil =>
    rw [entries, ← List.append_nil (plain joined), build_plain]
    simp [build, itemsWith]
  | cons piece pieces ih =>
    have htail := fun joined => ih joined fun q hq => h q (.tail _ hq)
    cases piece with
    | literal text ht => exact htail (joined ++ text)
    | escape c hc =>
      have hknown : ((formatItems.lookup [c]).isSome) = true := h _ (.head _)
      obtain ⟨item, hitem⟩ := Option.isSome_iff_exists.mp hknown
      rw [entries, build_plain, build, if_neg (by simp), if_neg (escape_ne_date hc)]
      simp only [hitem, htail, Formatter.cons, itemsWith]
      simp
    | date f hf =>
      rw [entries, build_plain, build, if_neg (by simp), if_pos rfl]
      simp only [htail, Formatter.cons, itemsWith]
      simp

theorem build_unknown (dateformat : Bytes) (pieces : List Piece) (joined : Bytes)
    (h : ∃ piece ∈ pieces, ¬piece.Known) :
    (build dateformat (entries joined pieces)).error = true := by
  induction pieces generalizing joined with
  | nil => simp at h
  | cons piece pieces ih =>
    have htail : piece.Known → ∃ piece ∈ pieces, ¬piece.Known := by
      intro hknown
      obtain ⟨q, hq, hunknown⟩ := h
      rcases List.mem_cons.mp hq with rfl | hmem
      · exact absurd hknown hunknown
      · exact ⟨q, hmem, hunknown⟩
    cases piece with
    | literal text ht => exact ih (joined ++ text) (htail trivial)
    | escape c hc =>
      rw [entries, build_plain, build, if_neg (by simp), if_neg (escape_ne_date hc)]
      cases hitem : formatItems.lookup [c] with
      | none => rfl
      | some item =>
        exact ih [] (htail (show (formatItems.lookup [c]).isSome = true by rw [hitem]; rfl))
    | date f hf =>
      rw [entries, build_plain, build, if_neg (by simp), if_pos rfl]
      exact ih [] (htail trivial)

/-- One format does for all dates if and only if it makes the item of each. -/
theorem itemsWith_iff (dateformat : Bytes) (pieces : List Piece) (joined : Bytes) :
    itemsWith dateformat joined pieces = items joined pieces ↔
      ∀ f ∈ formats pieces, dateTimeItem dateformat = dateTimeItem f := by
  induction pieces generalizing joined with
  | nil => simp [itemsWith, items, formats]
  | cons piece pieces ih =>
    cases piece with
    | literal text ht => exact ih (joined ++ text)
    | escape c hc => simp [itemsWith, items, formats, ih]
    | date f hf => simp [itemsWith, items, formats, ih]

end Entries

section Dates

theorem dateTimeItem_ne {f : Bytes} (h : f ≠ []) : dateTimeItem f = .dateTime f := by
  rw [dateTimeItem, if_neg h]

theorem dateTimeItem_empty : dateTimeItem [] = .dateTime (ascii "%Y-%m-%d %H:%M:%S") := rfl

theorem default_ne_nil : ascii "%Y-%m-%d %H:%M:%S" ≠ [] := by decide

theorem flatten_filter (fs : List Bytes) :
    (fs.filter fun f => !f.isEmpty).flatten = fs.flatten := List.flatten_filter_not_isEmpty

theorem shared_items {fs : List Bytes} (h : Shared fs) :
    ∀ f ∈ fs, dateTimeItem fs.flatten = dateTimeItem f := by
  intro f hf
  rcases h with hlen | hempty | hdefault
  · cases fs with
    | nil => cases hf
    | cons g gs =>
      have hnil : gs = [] := by simpa using hlen
      rw [hnil] at hf ⊢
      rw [List.mem_singleton.mp hf, List.flatten_singleton]
  · rw [hempty f hf, List.flatten_eq_nil_iff.mpr hempty]
  · rw [← flatten_filter, hdefault, List.flatten_singleton]
    by_cases hnil : f = []
    · rw [hnil, dateTimeItem_empty, dateTimeItem_ne default_ne_nil]
    · have hmem : f ∈ fs.filter fun f => !f.isEmpty := by simpa [hf] using hnil
      rw [hdefault, List.mem_singleton] at hmem
      rw [hmem]

/-- A format that is the concatenation of all formats is the only one that is not empty. -/
theorem items_shared {fs : List Bytes}
    (h : ∀ f ∈ fs, dateTimeItem fs.flatten = dateTimeItem f) : Shared fs := by
  cases hgs : fs.filter (fun f => !f.isEmpty) with
  | nil =>
    refine Or.inr (Or.inl ?_)
    intro f hf
    have := List.filter_eq_nil_iff.mp hgs f hf
    simpa using this
  | cons g gs =>
    have hmem : ∀ f ∈ g::gs, f ∈ fs ∧ f ≠ [] := by
      intro f hf
      rw [← hgs, List.mem_filter] at hf
      exact ⟨hf.1, by simpa using hf.2⟩
    obtain ⟨hg, hne⟩ := hmem g (.head _)
    have hflat : fs.flatten = g ++ gs.flatten := by
      rw [← flatten_filter, hgs, List.flatten_cons]
    have hall : fs.flatten ≠ [] := by
      rw [hflat]
      exact List.append_ne_nil_of_left_ne_nil hne _
    have hone : g ++ gs.flatten = g := by
      have heq := h g hg
      rw [dateTimeItem_ne hall, dateTimeItem_ne hne, Item.dateTime.injEq, hflat] at heq
      exact heq
    have hnil : gs = [] := by
      have hflatten : gs.flatten = [] := by simpa using hone
      rw [List.eq_nil_iff_forall_not_mem]
      intro f hf
      exact (hmem f (.tail _ hf)).2 (List.flatten_eq_nil_iff.mp hflatten f hf)
    rw [hnil] at hgs hflat
    rw [List.flatten_nil, List.append_nil] at hflat
    by_cases hempty : [] ∈ fs
    · have heq := h [] hempty
      rw [hflat, dateTimeItem_ne hne, dateTimeItem_empty, Item.dateTime.injEq] at heq
      exact Or.inr (Or.inr (by rw [hgs, heq]))
    · have hself : fs.filter (fun f => !f.isEmpty) = fs := by
        rw [List.filter_eq_self]
        intro f hf
        simpa using fun hnil : f = [] => hempty (hnil ▸ hf)
      rw [hself] at hgs
      exact Or.inl (by rw [hgs]; rfl)

end Dates

section Run

variable {pieces front back : List Piece} {tail : Tail}

/-- The text between the pieces is readable unless nothing is left behind a date. -/
theorem readable (h : Separated tail (front ++ back))
    (hend : ∀ a hn b, front = a ++ .date none hn::b → text (b ++ back) tail ≠ []) :
    Readable (text back tail) front := by
  induction front with
  | nil => trivial
  | cons piece front ih =>
    have hrest : ∀ a hn b, front = a ++ .date none hn::b → text (b ++ back) tail ≠ [] := by
      intro a hn b heq
      exact hend (piece::a) hn b (by rw [heq, List.cons_append])
    cases piece with
    | literal => exact ih h hrest
    | escape => exact ih h hrest
    | date f hf =>
      cases f with
      | some f => exact ih h hrest
      | none =>
        refine ⟨?_, ih h.2 hrest⟩
        have hne := hend [] hf front rfl
        have heq : front.flatMap Piece.text ++ text back tail = text (front ++ back) tail := by
          simp [text]
        rw [heq]
        obtain ⟨c, rest, hc⟩ := List.exists_cons_of_ne_nil hne
        refine ⟨c, by rw [hc]; rfl, ?_⟩
        rintro rfl
        have hbrace : (text (front ++ back) tail).head? ≠ some ('{' : UInt8) := h.1
        exact hbrace (by rw [hc]; rfl)

theorem start_between : Between start := ⟨rfl, rfl⟩

theorem ends_front {rest : Bytes} {r : Except OutOfBounds Scan}
    (hread : Readable rest pieces)
    (hr : Ends (pieces.flatMap Piece.text ++ rest) (pieces.foldl after start) r) :
    Ends (pieces.flatMap Piece.text ++ rest) start r :=
  ends_pieces start_between pieces rfl hread hr

theorem drop_front (rest : Bytes) :
    (pieces.flatMap Piece.text ++ rest).drop (pieces.foldl after start).i = rest := by
  rw [foldl_i]
  exact drop_behind (i := 0) rfl

theorem init_of_ends {p : Bytes} {r : Except OutOfBounds Scan} (h : Ends p start r) :
    init p = r >>= fun s => if s.error then .ok { items := [], error := true }
      else .ok (build s.dateformat (s.patterns ++ plain s.tmp)) := by
  rw [init, h p.length (Nat.sub_le _ _)]
  rfl

theorem build_front (s : Scan) (hpatterns : s.patterns ++ plain s.tmp =
      (pieces.foldl after start).patterns ++ plain (pieces.foldl after start).tmp)
    (hdate : s.dateformat = (pieces.foldl after start).dateformat) :
    build s.dateformat (s.patterns ++ plain s.tmp) =
      build (formats pieces).flatten (entries [] pieces) := by
  rw [hpatterns, hdate, foldl_entries, foldl_dateformat]
  rfl

end Run

section Patterns

variable {d : Pattern}

theorem pieces_readable (h : ¬d.EndsBare) : Readable d.tail.text d.pieces := by
  have hsep : Separated d.tail (d.pieces ++ []) := by
    rw [List.append_nil]
    exact d.separated
  apply readable hsep
  intro a hn b heq hnil
  rw [List.append_nil] at hnil
  exact h ⟨a, hn, b, heq, hnil⟩

theorem init_whole (htail : d.tail = .whole) (hend : ¬d.EndsBare) :
    init d.text = .ok (build (formats d.pieces).flatten (entries [] d.pieces)) := by
  have hread := pieces_readable hend
  rw [htail] at hread
  have hbetween := foldl_between start_between d.pieces
  have hdone : Ends (d.pieces.flatMap Piece.text ++ []) (d.pieces.foldl after start)
      (.ok (d.pieces.foldl after start)) := by
    apply ends_done
    left
    rw [foldl_i, List.append_nil]
    exact Nat.le_add_left _ _
  rw [Pattern.text, text, htail]
  rw [init_of_ends (ends_front hread hdone), ok_bind, if_neg (by simp [hbetween.error]),
    build_front _ rfl rfl]

theorem init_lone (htail : d.tail = .lone) (hend : ¬d.EndsBare) :
    init d.text = .ok (build (formats d.pieces).flatten (entries [] d.pieces)) := by
  have hread := pieces_readable hend
  rw [htail] at hread
  have hbetween := foldl_between start_between d.pieces
  have hdrop : (d.pieces.flatMap Piece.text ++ [('%' : UInt8)]).drop
      (d.pieces.foldl after start).i = ('%' : UInt8)::[] := drop_front _
  have hlen := congrArg List.length hdrop
  rw [List.length_drop, List.length_singleton] at hlen
  have hdone := ends_percent hbetween hdrop (ends_done (Or.inl (by simp only; omega)))
  rw [Pattern.text, text, htail]
  rw [init_of_ends (ends_front hread hdone), ok_bind, if_neg (by simp [hbetween.error])]
  exact congrArg Except.ok (build_front _ (by simp [plain]) rfl)

theorem init_unclosed {f : Bytes} {hf : ('}' : UInt8) ∉ f} (htail : d.tail = .unclosed f hf) :
    init d.text = .ok { items := [], error := true } := by
  have hend : ¬d.EndsBare := by
    rintro ⟨front, hn, back, -, hnil⟩
    rw [htail] at hnil
    simp [text, Tail.text] at hnil
  have hread := pieces_readable hend
  rw [htail] at hread
  have hbetween := foldl_between start_between d.pieces
  have hdrop : (d.pieces.flatMap Piece.text ++ (Tail.unclosed f hf).text).drop
      (d.pieces.foldl after start).i = ('%' : UInt8)::('d' : UInt8)::('{' : UInt8)::f :=
    drop_front _
  have hnext := drop_next hdrop
  have hdone := ends_percent hbetween hdrop (ends_step (drop_lt hnext) hbetween.error
    (step_unclosed hnext hf rfl) (by simp only; omega) (ends_done (Or.inr rfl)))
  rw [Pattern.text, text, htail]
  rw [init_of_ends (ends_front hread hdone), ok_bind, if_pos rfl]

/-- A date at the very end makes the scan read behind the terminator. -/
theorem init_bare (h : d.EndsBare) : init d.text = .error .index := by
  obtain ⟨front, hn, back, heq, hnil⟩ := h
  have hback : text (.date none hn::back) d.tail = [('%' : UInt8), ('d' : UInt8)] := by
    have hcut : text (.date none hn::back) d.tail =
        [('%' : UInt8), ('d' : UInt8)] ++ text back d.tail := by
      simp [text, Piece.text]
    rw [hcut, hnil, List.append_nil]
  have hsep : Separated d.tail (front ++ .date none hn::back) := heq ▸ d.separated
  have hread := readable hsep (by
    intro a hn' b _ hempty
    have : text (b ++ .date none hn::back) d.tail =
        b.flatMap Piece.text ++ text (.date none hn::back) d.tail := by simp [text]
    rw [this, hback] at hempty
    simp at hempty)
  rw [hback] at hread
  have hbetween := foldl_between start_between front
  have hdrop : (front.flatMap Piece.text ++ [('%' : UInt8), ('d' : UInt8)]).drop
      (front.foldl after start).i = ('%' : UInt8)::('d' : UInt8)::[] := drop_front _
  have hnext := drop_next hdrop
  have hfail := ends_percent hbetween hdrop (ends_fail (drop_lt hnext) hbetween.error
    (step_end hnext rfl))
  have htext : d.text = front.flatMap Piece.text ++ [('%' : UInt8), ('d' : UInt8)] := by
    rw [Pattern.text, heq, ← hback]
    simp [text]
  rw [htext, init_of_ends (ends_front hread hfail)]
  rfl

theorem supported_compiled (h : Supported d) : Compiled d := by
  cases h with
  | @unclosed f hf htail =>
    constructor
    · intro hcomplete
      rw [hcomplete.tail] at htail
      cases htail
    · intro _
      exact ⟨_, init_unclosed htail, rfl⟩
  | unknown hunknown hend =>
    have herror := build_unknown (formats d.pieces).flatten d.pieces [] hunknown
    constructor
    · intro hcomplete
      obtain ⟨piece, hmem, hno⟩ := hunknown
      exact absurd (hcomplete.known piece hmem) hno
    · intro _
      cases htail : d.tail with
      | whole => exact ⟨_, init_whole htail hend, herror⟩
      | lone => exact ⟨_, init_lone htail hend, herror⟩
      | unclosed f hf => exact ⟨_, init_unclosed htail, rfl⟩
  | complete hcomplete hend hdates =>
    constructor
    · intro _
      rw [init_whole hcomplete.tail hend, build_known _ _ _ hcomplete.known,
        (itemsWith_iff _ _ _).mpr (shared_items hdates)]
    · intro hno
      exact absurd hcomplete hno

theorem compiled_supported (h : Compiled d) : Supported d := by
  have hend : ¬d.EndsBare := by
    intro hbare
    have hinit := init_bare hbare
    by_cases hcomplete : d.Complete
    · rw [h.complete hcomplete] at hinit
      cases hinit
    · obtain ⟨f, hf, -⟩ := h.incomplete hcomplete
      rw [hf] at hinit
      cases hinit
  by_cases hknown : ∀ piece ∈ d.pieces, piece.Known
  · cases htail : d.tail with
    | whole =>
      have hcomplete : d.Complete := ⟨hknown, htail⟩
      have hinit := h.complete hcomplete
      rw [init_whole htail hend, build_known _ _ _ hknown, Except.ok.injEq,
        Formatter.mk.injEq] at hinit
      exact Supported.complete hcomplete hend (items_shared ((itemsWith_iff _ _ _).mp hinit.1))
    | lone =>
      -- a `%` at the end is dropped in silence
      have hno : ¬d.Complete := by
        intro hcomplete
        rw [hcomplete.tail] at htail
        cases htail
      obtain ⟨f, hf, herror⟩ := h.incomplete hno
      rw [init_lone htail hend, build_known _ _ _ hknown, Except.ok.injEq] at hf
      rw [← hf] at herror
      cases herror
    | unclosed f hf => exact Supported.unclosed htail
  · push Not at hknown
    exact Supported.unknown hknown hend

end Patterns

theorem exists_pattern (t : Bytes) : ∃ d : Pattern, d.text = t := by
  induction hlen : t.length using Nat.strong_induction_on generalizing t with
  | _ n ih =>
    have hshorter : ∀ u : Bytes, u.length < t.length → ∃ d : Pattern, d.text = u :=
      fun u hu => ih u.length (by omega) u rfl
    cases t with
    | nil => exact ⟨{ pieces := [], tail := .whole, separated := trivial }, rfl⟩
    | cons c rest =>
      by_cases hc : c = ('%' : UInt8)
      · subst hc
        cases rest with
        | nil => exact ⟨{ pieces := [], tail := .lone, separated := trivial }, rfl⟩
        | cons e rest =>
          obtain ⟨d, hd⟩ := hshorter rest (by simp only [List.length_cons]; omega)
          by_cases he : e = ('d' : UInt8)
          · subst he
            by_cases hopen : rest.head? = some ('{' : UInt8)
            · obtain ⟨u, rfl⟩ := List.head?_eq_some_iff.mp hopen
              by_cases hclose : ('}' : UInt8) ∈ u
              · obtain ⟨f, v, rfl, hf⟩ := List.eq_append_cons_of_mem hclose
                obtain ⟨d', hd'⟩ := hshorter v (by
                  simp only [List.length_cons, List.length_append]
                  omega)
                refine ⟨{
                  pieces := .date (some f) (by simpa using hf)::d'.pieces
                  tail := d'.tail
                  separated := d'.separated }, ?_⟩
                rw [← hd']
                simp [Pattern.text, text, Piece.text]
              · exact ⟨{ pieces := [], tail := .unclosed u hclose, separated := trivial }, rfl⟩
            · subst hd
              exact ⟨{
                pieces := .date none (by simp)::d.pieces
                tail := d.tail
                separated := ⟨hopen, d.separated⟩ }, by simp [Pattern.text, text, Piece.text]⟩
          · refine ⟨{
              pieces := .escape e he::d.pieces
              tail := d.tail
              separated := d.separated }, ?_⟩
            rw [← hd]
            simp [Pattern.text, text, Piece.text]
      · obtain ⟨d, hd⟩ := hshorter rest (Nat.lt_succ_self _)
        refine ⟨{
          pieces := .literal [c] (by simpa using Ne.symm hc)::d.pieces
          tail := d.tail
          separated := d.separated }, ?_⟩
        rw [← hd]
        simp [Pattern.text, text, Piece.text]

/-- A pattern is compiled to its items or rejected if and only if it does not end in a date
without braces, one format does for all its dates, and no `%` alone at its end is all that is
wrong with it. -/
theorem compiled_iff (d : Pattern) : Compiled d ↔ Supported d :=
  ⟨compiled_supported, supported_compiled⟩

def messageDate : Pattern := {
  pieces := [.escape ('m' : UInt8) (by decide), .date none (by simp)]
  tail := .whole
  separated := ⟨by decide, trivial⟩ }

theorem date_at_end : ¬Compiled messageDate := by
  intro h
  have hcomplete : messageDate.Complete := by
    refine ⟨?_, rfl⟩
    intro piece hpiece
    simp only [messageDate, List.mem_cons, List.not_mem_nil, or_false] at hpiece
    rcases hpiece with rfl | rfl
    · exact (by decide : (formatItems.lookup [('m' : UInt8)]).isSome = true)
    · trivial
  have hbare : messageDate.EndsBare :=
    ⟨[.escape ('m' : UInt8) (by decide)], by simp, [], rfl, rfl⟩
  have hinit := h.complete hcomplete
  rw [init_bare hbare] at hinit
  cases hinit

end Lamb.LogPattern
