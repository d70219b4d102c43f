import Lamb.HttpHeaderLines
import Mathlib.Data.Nat.Digits.Defs

/-!
# HttpResponse::dump

The server writes `content-length` when there is a body, below the headers that the
user has set. In lines, the dump is a status line, a list of headers, a blank line and
the body; what the headers say about the body follows from the user's headers and the
body alone.
-/

set_option autoImplicit false

namespace Lamb.HttpResponseDump
open Lamb.ByteString Lamb.Http Lamb.HttpUrl Lamb.HttpMachine Lamb.HttpParser
open Lamb.Tokens Lamb.HttpResponseHead Lamb.HttpHeaderNames Lamb.HttpHeaderValues
open Lamb.HttpHeaderLines

def decimal (n : ℕ) : Bytes := if n = 0 then [48] else ((Nat.digits 10 n).map digit).reverse

/-- `HttpResponse::dump`. `statusText` is `HttpStatusToString`. -/
def dump (statusText : ℕ → Bytes) (r : ServerResponse) : Bytes :=
  ascii "HTTP/" ++ decimal (r.version >>> 4) ++ ascii "." ++ decimal (r.version &&& 0x0F) ++
    ascii " " ++ decimal r.status ++ ascii " " ++
    (if r.reason.isEmpty then statusText r.status else r.reason) ++ crlf ++
  r.headers.flatMap (fun i =>
    if !r.websocket && folded i.1 = ascii "connection" then [] else headerLine i) ++
  r.cookies.flatMap (fun i => ascii "Set-Cookie: " ++ i ++ crlf) ++
  (if !r.websocket then
    ascii "connection: " ++ (if r.close then ascii "close" else ascii "keep-alive") ++ crlf
  else []) ++
  (if !r.body.isEmpty then
    ascii "content-length: " ++ decimal r.body.length ++ crlf ++ crlf ++ r.body
  else crlf)

/-- A response that the grammar of messages allows: a final status, version 1.1, no
upgrade, and legal headers, cookies and reason. -/
structure Legal (statusText : ℕ → Bytes) (r : ServerResponse) : Prop where
  final : 200 ≤ r.status ∧ r.status < 1000
  version : r.version = 0x11
  plain : r.websocket = false
  headers : ∀ h ∈ r.headers, LegalHeader h
  cookies : ∀ c ∈ r.cookies, ∀ ch ∈ c, textChar ch = true
  reason : ∀ ch ∈ r.reason, textChar ch = true
  text : ∀ ch ∈ statusText r.status, textChar ch = true

def headerList (r : ServerResponse) : List (Bytes × Bytes) :=
  r.headers.filter (fun h => !decide (folded h.1 = ascii "connection")) ++
    r.cookies.map (ascii "Set-Cookie", ·) ++
    [(ascii "connection", if r.close then ascii "close" else ascii "keep-alive")] ++
    (if r.body = [] then [] else [(ascii "content-length", decimal r.body.length)])

def statusLine (statusText : ℕ → Bytes) (r : ServerResponse) : Bytes :=
  ascii "HTTP/1.1 " ++ [digit (r.status/100), digit (r.status/10%10), digit (r.status%10), 32] ++
    ((if r.reason.isEmpty then statusText r.status else r.reason) ++ crlf)

theorem digits_three {n : ℕ} (h : 100 ≤ n ∧ n < 1000) :
    Nat.digits 10 n = [n%10, n/10%10, n/100] := by
  rw [Nat.digits_def' (by decide) (by omega), Nat.digits_def' (by decide) (by omega),
    Nat.digits_def' (by decide) (by omega)]
  have h0 : n/10/10/10 = 0 := by omega
  rw [h0, Nat.digits_zero, Nat.div_div_eq_div_mul, show n/(10*10)%10 = n/100 by omega]

theorem decimal_three {n : ℕ} (h : 100 ≤ n ∧ n < 1000) :
    decimal n = [digit (n/100), digit (n/10%10), digit (n%10)] := by
  rw [decimal, if_neg (by omega), digits_three h]
  rfl

theorem flatMap_skip {α : Type} (skip : α → Bool) (f : α → Bytes) (l : List α) :
    l.flatMap (fun i => if skip i then [] else f i) = (l.filter fun i => !skip i).flatMap f := by
  induction l with
  | nil => rfl
  | cons i rest ih =>
    rw [List.flatMap_cons, ih]
    cases h : skip i <;> simp [h]

theorem dump_eq {statusText : ℕ → Bytes} {r : ServerResponse} (hr : Legal statusText r) :
    dump statusText r =
      statusLine statusText r ++ (headerList r).flatMap headerLine ++ crlf ++ r.body := by
  have hversion : ascii "HTTP/" ++ decimal (r.version >>> 4) ++ ascii "." ++
      decimal (r.version &&& 0x0F) ++ ascii " " = ascii "HTTP/1.1 " := by
    rw [hr.version]
    decide
  have hheaders : r.headers.flatMap (fun i =>
      if !r.websocket && folded i.1 = ascii "connection" then [] else headerLine i) =
      (r.headers.filter fun h => !decide (folded h.1 = ascii "connection")).flatMap headerLine := by
    rw [hr.plain, ← flatMap_skip]
    rfl
  have hcookies : r.cookies.flatMap (fun i => ascii "Set-Cookie: " ++ i ++ crlf) =
      (r.cookies.map (ascii "Set-Cookie", ·)).flatMap headerLine := by
    rw [List.flatMap_map]
    rfl
  have hspace : ascii " " = [32] := by decide
  have hconnection : ascii "connection: " = ascii "connection" ++ ascii ": " := by decide
  have hlength : ascii "content-length: " = ascii "content-length" ++ ascii ": " := by decide
  have hfinal := hr.final
  rw [dump, hversion, hheaders, hcookies, decimal_three ⟨by omega, hfinal.2⟩, hr.plain, headerList,
    statusLine]
  cases hbody : r.body with
  | nil => simp [headerLine, hspace, hconnection]
  | cons b rest => simp [headerLine, hspace, hconnection, hlength]

/-! ## What the headers say -/

theorem text_legal {s : Bytes} (h : s.all textChar = true) : ∀ c ∈ s, textChar c = true :=
  List.all_eq_true.mp h

theorem digit_text {d : ℕ} (h : d < 10) : textChar (digit d) = true := by
  revert d
  decide

theorem digit_blank {d : ℕ} (h : d < 10) : isBlank (digit d) = false := by
  revert d
  decide

theorem decimal_text (n : ℕ) : ∀ c ∈ decimal n, textChar c = true := by
  intro c hc
  unfold decimal at hc
  split_ifs at hc
  · obtain rfl := List.mem_singleton.mp hc
    decide
  · obtain ⟨d, hd, rfl⟩ := List.mem_map.mp (List.mem_reverse.mp hc)
    exact digit_text (Nat.digits_lt_base (by decide) hd)

theorem headerList_legal {statusText : ℕ → Bytes} {r : ServerResponse}
    (hr : Legal statusText r) : ∀ h ∈ headerList r, LegalHeader h := by
  have hcookie : LegalName (ascii "Set-Cookie") := by decide
  have hconnection : LegalName (ascii "connection") := by decide
  have hlength : LegalName (ascii "content-length") := by decide
  intro h hmem
  simp only [headerList, List.mem_append] at hmem
  rcases hmem with ((hmem | hmem) | hmem) | hmem
  · exact hr.headers h (List.mem_of_mem_filter hmem)
  · obtain ⟨c, hc, rfl⟩ := List.mem_map.mp hmem
    exact ⟨hcookie, hr.cookies c hc⟩
  · obtain rfl := List.mem_singleton.mp hmem
    refine ⟨hconnection, text_legal ?_⟩
    cases r.close <;> decide
  · split_ifs at hmem
    · cases hmem
    · obtain rfl := List.mem_singleton.mp hmem
      exact ⟨hlength, decimal_text r.body.length⟩

theorem foldl_grows (ds : List ℕ) (m : ℕ) : m ≤ ds.foldl (fun a d => a*10+d) m := by
  induction ds generalizing m with
  | nil => exact le_refl m
  | cons d ds ih =>
    have hle := ih (m*10+d)
    rw [List.foldl_cons]
    omega

/-- Digits read from the front, as `h_content_length_num` does. -/
theorem foldl_digits (ds : List ℕ) (hds : ∀ d ∈ ds, d < 10) (m : ℕ)
    (h : ds.foldl (fun a d => a*10+d) m < 2^63) :
    (ds.map digit).foldl lengthStep (some (false, m)) =
      some (false, ds.foldl (fun a d => a*10+d) m) := by
  induction ds generalizing m with
  | nil => rfl
  | cons d ds ih =>
    have hd := hds d (.head ds)
    have hle := foldl_grows ds (m*10+d)
    rw [List.foldl_cons] at h
    have hmax : (ullongMax-10)/10 = 1844674407370955160 := by decide
    have hspace : digit d ≠ (' ' : Char) := by
      intro h0
      have hblank := digit_blank hd
      rw [h0] at hblank
      cases hblank
    have hstep : lengthStep (some (false, m)) (digit d) = some (false, m*10+d) := by
      simp only [lengthStep, Option.bind_some, hspace, if_false, digit_num hd, digit_value hd, hmax]
      rw [if_neg (by simp; omega)]
    rw [List.map_cons, List.foldl_cons, hstep, List.foldl_cons]
    exact ih (fun e he => hds e (.tail d he)) _ h

theorem digits_value (b n : ℕ) : (Nat.digits b n).reverse.foldl (fun a d => a*b+d) 0 = n := by
  have hof : Nat.ofDigits b (Nat.digits b n) = n := Nat.ofDigits_digits b n
  rw [Nat.ofDigits_eq_foldr] at hof
  rw [List.foldl_reverse]
  refine Eq.trans ?_ hof
  congr 1
  funext x y
  simp only [Nat.cast_id]
  ring

/-- The parser reads back the length that the server has written. -/
theorem lengthValue_decimal {n : ℕ} (hpos : 0 < n) (h : n < 2^63) :
    lengthValue (decimal n) = some n := by
  have hdigits : ∀ d ∈ (Nat.digits 10 n).reverse, d < 10 := fun d hd =>
    Nat.digits_lt_base (by decide) (List.mem_reverse.mp hd)
  have hvalue := digits_value 10 n
  have hdecimal : decimal n = (Nat.digits 10 n).reverse.map digit := by
    rw [decimal, if_neg (by omega), List.map_reverse]
  cases hds : (Nat.digits 10 n).reverse with
  | nil =>
    rw [hds] at hvalue
    exact absurd hvalue (Nat.ne_of_lt hpos)
  | cons d ds =>
    rw [hds] at hvalue hdigits
    have hd := hdigits d (.head ds)
    have hblank : isBlank (digit d) = false := digit_blank hd
    have hbare : bare (decimal n) = digit d::ds.map digit := by
      rw [hdecimal, hds, List.map_cons, bare, List.dropWhile_cons_of_neg (by simp [hblank])]
    rw [List.foldl_cons, Nat.zero_mul, Nat.zero_add] at hvalue
    have hfold := foldl_digits ds (fun e he => hdigits e (.tail d he)) d (hvalue ▸ h)
    rw [lengthValue, hbare, lengthFold, if_pos (digit_num hd), digit_value hd, hfold, hvalue]
    rfl

def frame (r : ServerResponse) : Option Frame := framing .none (headerList r)

theorem folded_lower {k : Bytes} (h : LegalName k) : folded k = lowerName k := by
  have hne : ∀ c ∈ k, decide (c ≠ 0) = true := fun c hc =>
    decide_eq_true (nameChar_ne (h.2 c hc) (by decide))
  rw [folded, List.takeWhile_eq_self_iff.mpr hne]
  rfl

/-- The dump adds its own length to those that the user has set. -/
theorem lengths_headerList {statusText : ℕ → Bytes} {r : ServerResponse} (hr : Legal statusText r) :
    lengths (headerList r) =
      lengths r.headers ++ if r.body = [] then [] else [decimal r.body.length] := by
  have hskip : ∀ h ∈ r.headers, lowerName h.1 = lengthName →
      folded h.1 ≠ ascii "connection" := by
    intro h hmem hlength
    rw [folded_lower (hr.headers h hmem).1, hlength]
    decide
  have hheaders : lengths (r.headers.filter fun h => !decide (folded h.1 = ascii "connection")) =
      lengths r.headers := by
    rw [lengths, List.filter_filter]
    refine congrArg _ (List.filter_congr fun h hmem => ?_)
    by_cases hlength : lowerName h.1 = lengthName
    · simp [hlength, hskip h hmem hlength]
    · simp [hlength]
  have hcookies : lengths (r.cookies.map (ascii "Set-Cookie", ·)) = [] := by
    have hne : lowerName (ascii "Set-Cookie") ≠ lengthName := by decide
    simp [lengths, hne]
  have happend : ∀ a b, lengths (a ++ b) = lengths a ++ lengths b := fun a b => by
    simp [lengths]
  have hconnection : lowerName (ascii "connection") ≠ lengthName := by decide
  have hlength : lowerName (ascii "content-length") = lengthName := by decide
  rw [headerList, happend, happend, happend, hheaders, hcookies]
  split_ifs <;> simp [lengths, hconnection, hlength]

theorem chunks_headerList {statusText : ℕ → Bytes} {r : ServerResponse} (hr : Legal statusText r) :
    announcesChunks (headerList r) = announcesChunks r.headers := by
  have happend : ∀ a b, announcesChunks (a ++ b) = (announcesChunks a || announcesChunks b) :=
    fun a b => List.any_append
  have hheaders : announcesChunks
      (r.headers.filter fun h => !decide (folded h.1 = ascii "connection")) =
        announcesChunks r.headers := by
    refine Bool.eq_iff_iff.mpr ?_
    simp only [announcesChunks, List.any_eq_true, Bool.and_eq_true, decide_eq_true_eq]
    constructor
    · rintro ⟨h, hmem, hh⟩
      exact ⟨h, List.mem_of_mem_filter hmem, hh⟩
    · rintro ⟨h, hmem, hname, hchunked⟩
      refine ⟨h, List.mem_filter.mpr ⟨hmem, ?_⟩, hname, hchunked⟩
      rw [folded_lower (hr.headers h hmem).1, hname]
      decide
  have hcookies : announcesChunks (r.cookies.map (ascii "Set-Cookie", ·)) = false := by
    have hne : lowerName (ascii "Set-Cookie") ≠ codingName := by decide
    simp [announcesChunks, hne]
  have hconnection : lowerName (ascii "connection") ≠ codingName := by decide
  have hlength : lowerName (ascii "content-length") ≠ codingName := by decide
  rw [headerList, happend, happend, happend, hheaders, hcookies]
  split_ifs <;> simp [announcesChunks, hconnection, hlength]

theorem lengthOf_two (l : Option ℕ) (v w : Bytes) (vs : List Bytes) :
    lengthOf l (v::w::vs) = none := by
  unfold lengthOf
  split
  · unfold lengthOf
    split
    · next h => cases h
    · rfl
  · rfl

/-- There is at most one `content-length`, and it is a number. -/
theorem lengthOf_some {vs : List Bytes} {l : Option ℕ} (h : lengthOf none vs = some l) :
    vs = [] ∧ l = none ∨ ∃ v n, vs = [v] ∧ lengthValue v = some n ∧ l = some n := by
  cases vs with
  | nil => exact .inl ⟨rfl, (Option.some.inj h).symm⟩
  | cons v vs =>
    cases vs with
    | cons w ws =>
      rw [lengthOf_two] at h
      cases h
    | nil =>
      cases hv : lengthValue v with
      | none =>
        simp only [lengthOf, hv] at h
        cases h
      | some n =>
        simp only [lengthOf, hv] at h
        exact .inr ⟨v, n, rfl, hv, (Option.some.inj h).symm⟩

theorem frame_lt {r : ServerResponse} {fr : Frame} (h : frame r = some fr) {n : ℕ}
    (hn : fr.length = some n) : n < ullongMax := by
  rw [frame, Frame.none, framing_eq] at h
  obtain ⟨l, hl, rfl⟩ := Option.map_eq_some_iff.mp h
  rcases lengthOf_some hl with ⟨-, rfl⟩ | ⟨v, k, -, hv, rfl⟩
  · cases hn
  · obtain rfl := Option.some.inj hn
    obtain ⟨⟨ws, k⟩, hfold, rfl⟩ := Option.map_eq_some_iff.mp hv
    exact lengthFold_lt hfold

/-- With a body, the frame is its length unless the user has set one or announced
chunks. -/
theorem frame_body {statusText : ℕ → Bytes} {r : ServerResponse} (hr : Legal statusText r)
    (hbody : r.body ≠ []) (hsize : r.body.length < 2^63) : frame r =
      if lengths r.headers = [] then some ⟨announcesChunks r.headers, some r.body.length⟩
      else none := by
  have hpos : 0 < r.body.length := List.length_pos_iff.mpr hbody
  rw [frame, Frame.none, framing_eq, lengths_headerList hr, chunks_headerList hr, if_neg hbody]
  cases hl : lengths r.headers with
  | nil =>
    rw [if_pos rfl, List.nil_append]
    simp only [lengthOf, lengthValue_decimal hpos hsize, Option.map_some, Bool.false_or]
  | cons v vs =>
    rw [if_neg (by simp)]
    cases vs with
    | nil =>
      rw [List.singleton_append, lengthOf_two]
      rfl
    | cons w ws =>
      rw [List.cons_append, List.cons_append, lengthOf_two]
      rfl

theorem frame_empty {statusText : ℕ → Bytes} {r : ServerResponse} (hr : Legal statusText r)
    (hbody : r.body = []) : frame r = (lengthOf none (lengths r.headers)).map fun l =>
      ⟨announcesChunks r.headers, l⟩ := by
  rw [frame, Frame.none, framing_eq, lengths_headerList hr, chunks_headerList hr, if_pos hbody,
    List.append_nil]
  simp only [Bool.false_or]

end Lamb.HttpResponseDump
