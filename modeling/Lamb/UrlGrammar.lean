import Lamb.HttpUrl
import Lamb.Library.Machine
import Mathlib.Tactic.Common

/-!
# What the URL parser accepts

An absolute URL is put together from a scheme, an authority and a tail of path, query and
fragment. The parser takes exactly these texts and the references that start with a slash
or an asterisk, and its spans delimit the parts as long as their offsets fit.
-/

set_option autoImplicit false

namespace Lamb.UrlGrammar
open Lamb.ByteString Lamb.Http Lamb.HttpUrl

def isQueryChar (strict : Bool) (c : UInt8) : Bool := isUrlChar strict c || c = '?'
def isFragmentChar (strict : Bool) (c : UInt8) : Bool := isUrlChar strict c || c = '?' || c = '#'

def IsV6 (host : Bytes) : Prop :=
  ∃ v zone, host = v ++ zone ∧ v ≠ [] ∧ (∀ c ∈ v, isV6Char c = true) ∧
    (zone = [] ∨ ∃ id, zone = ('%' : UInt8)::id ∧ id ≠ [] ∧ ∀ c ∈ id, isZoneChar c = true)

structure Authority (strict : Bool) where
  userinfo : Option Bytes
  bracketed : Bool
  host : Bytes
  port : Option Bytes
  userinfo_ok : ∀ w ∈ userinfo, ∀ c ∈ w, isUserinfoChar c = true
  bracketed_ok : bracketed = true → IsV6 host
  plain_ok : bracketed = false → host ≠ [] ∧ ∀ c ∈ host, isHostChar strict c = true
  port_ok : ∀ d ∈ port, d ≠ [] ∧ ∀ c ∈ d, isNum c = true

structure Tail (strict : Bool) where
  path : Bytes
  query : Option Bytes
  fragment : Option (ℕ × Bytes)
  path_ok : ∀ p ∈ path.head?, p = '/' ∧ ∀ c ∈ path.tail, isUrlChar strict c = true
  query_ok : ∀ q ∈ query, ∀ c ∈ q, isQueryChar strict c = true
  fragment_ok : ∀ f ∈ fragment, (∀ c ∈ f.2, isFragmentChar strict c = true) ∧
    ∀ c ∈ f.2.head?, c ≠ '#'
  /-- No number sign stands directly behind the authority. -/
  apart : fragment.isSome → path ≠ [] ∨ query.isSome

structure UrlText (strict : Bool) where
  scheme : Bytes
  authority : Authority strict
  tail : Tail strict
  scheme_ok : scheme ≠ [] ∧ ∀ c ∈ scheme, isAlpha c = true

variable {strict : Bool}

namespace Authority

def userinfoText (a : Authority strict) : Bytes :=
  match a.userinfo with
  | some w => w ++ [('@' : UInt8)]
  | none => []

def openText (a : Authority strict) : Bytes := if a.bracketed then [('[' : UInt8)] else []

def closeText (a : Authority strict) : Bytes := if a.bracketed then [(']' : UInt8)] else []

def portText (a : Authority strict) : Bytes :=
  match a.port with
  | some d => (':' : UInt8)::d
  | none => []

def text (a : Authority strict) : Bytes :=
  a.userinfoText ++ (a.openText ++ a.host ++ a.closeText) ++ a.portText

end Authority

namespace Tail

def queryText (t : Tail strict) : Bytes :=
  match t.query with
  | some q => ('?' : UInt8)::q
  | none => []

def fragmentText (t : Tail strict) : Bytes :=
  match t.fragment with
  | some (n, f) => ('#' : UInt8)::(List.replicate n ('#' : UInt8) ++ f)
  | none => []

def text (t : Tail strict) : Bytes := t.path ++ t.queryText ++ t.fragmentText

end Tail

namespace UrlText

def text (x : UrlText strict) : Bytes :=
  x.scheme ++ (ascii "://" ++ (x.authority.text ++ x.tail.text))

def part (x : UrlText strict) : UrlField → Bytes
  | .schema => x.scheme
  | .host => x.authority.host
  | .port => x.authority.port.getD []
  | .path => x.tail.path
  | .query => x.tail.query.getD []
  | .fragment => (x.tail.fragment.map Prod.snd).getD []
  | .userinfo => x.authority.userinfo.getD []

def offset (x : UrlText strict) : UrlField → ℕ
  | .schema => 0
  | .userinfo => x.scheme.length+3
  | .host => x.scheme.length+3+(x.authority.userinfoText ++ x.authority.openText).length
  | .port => x.scheme.length+3+(x.authority.userinfoText ++ (x.authority.openText ++
      x.authority.host ++ x.authority.closeText)).length+1
  | .path => x.scheme.length+3+x.authority.text.length
  | .query => x.scheme.length+3+x.authority.text.length+x.tail.path.length+1
  | .fragment => x.scheme.length+3+x.authority.text.length+
      (x.tail.path ++ x.tail.queryText).length+1+(x.tail.fragment.map Prod.fst).getD 0

def spanOf (off : ℕ) (w : Bytes) : Option HttpUrl.Span :=
  if w = [] then none else some ⟨off % 2^16, w.length⟩

end UrlText

section Characters

attribute [local simp] parseUrlChar parseHostChar urlLoop hostLoop

def isServerChar (c : UInt8) : Bool := isUserinfoChar c || c = '[' || c = ']'

/-- A character of a class is none that the class leaves out. -/
theorem class_ne {P : UInt8 → Bool} {c k : UInt8} (h : P c = true) (hk : P k = false) : c ≠ k := by
  rintro rfl
  rw [hk] at h
  cases h

theorem alphanum_userinfo (c : UInt8) (h : isAlphanum c = true) : isUserinfoChar c = true := by
  rw [isUserinfoChar, h]
  rfl

theorem hex_alphanum (c : UInt8) (h : isHex c = true) : isAlphanum c = true := by
  rw [isHex, Bool.or_eq_true] at h
  rw [isAlphanum, Bool.or_eq_true]
  rcases h with h | h
  · exact Or.inr h
  · rw [Bool.and_eq_true, decide_eq_true_iff, decide_eq_true_iff] at h
    exact Or.inl (decide_eq_true ⟨h.1, UInt8.le_trans h.2 (by decide)⟩)

theorem hostChar_userinfo (strict : Bool) (c : UInt8) (h : isHostChar strict c = true) :
    isUserinfoChar c = true := by
  simp only [isHostChar, Bool.or_eq_true, Bool.and_eq_true, decide_eq_true_iff] at h
  rcases h with ((h | rfl) | rfl) | ⟨-, rfl⟩
  · exact alphanum_userinfo c h
  · decide
  · decide
  · decide

theorem v6Char_userinfo (c : UInt8) (h : isV6Char c = true) : isUserinfoChar c = true := by
  simp only [isV6Char, Bool.or_eq_true, decide_eq_true_iff] at h
  rcases h with (h | rfl) | rfl
  · exact alphanum_userinfo c (hex_alphanum c h)
  · decide
  · decide

theorem zoneChar_userinfo (c : UInt8) (h : isZoneChar c = true) : isUserinfoChar c = true := by
  rw [isZoneChar, Bool.or_eq_true, decide_eq_true_iff] at h
  rcases h with h | h
  · exact alphanum_userinfo c h
  · have hall : (ascii "%.-_~").all isUserinfoChar = true := by decide
    exact List.all_eq_true.mp hall c h

theorem num_userinfo (c : UInt8) (h : isNum c = true) : isUserinfoChar c = true :=
  alphanum_userinfo c (by rw [isAlphanum, h, Bool.or_true])

theorem userinfo_bracket (c : UInt8) (h : isUserinfoChar c = true) : c ≠ '[' :=
  class_ne h (by decide)

theorem server_char (c : UInt8) (h : isServerChar c = true) : c ≠ '@' ∧ c ≠ '/' ∧ c ≠ '?' :=
  ⟨class_ne h (by decide), class_ne h (by decide), class_ne h (by decide)⟩

theorem hostChar_plain (strict : Bool) (c : UInt8) (h : isHostChar strict c = true) :
    c ≠ ':' ∧ c ≠ '%' := by
  cases strict with
  | false => exact ⟨class_ne h (by decide), class_ne h (by decide)⟩
  | true => exact ⟨class_ne h (by decide), class_ne h (by decide)⟩

theorem v6Char_host (strict : Bool) (c : UInt8) (h : isV6Char c = true) (hcolon : c ≠ ':') :
    isHostChar strict c = true := by
  simp only [isV6Char, Bool.or_eq_true, decide_eq_true_iff] at h
  rcases h with (h | h) | rfl
  · rw [isHostChar, hex_alphanum c h]
    rfl
  · exact absurd h hcolon
  · cases strict <;> decide

def Visible (strict : Bool) (c : UInt8) : Prop :=
  ¬(c = ' ' ∨ c = CR ∨ c = LF) ∧ ¬(strict = true ∧ (c = '\t' ∨ c = 12))

theorem class_visible {P : UInt8 → Bool} {strict : Bool} {c : UInt8} (h : P c = true)
    (hblank : P ' ' = false ∧ P CR = false ∧ P LF = false)
    (htab : strict = true → P '\t' = false ∧ P 12 = false) : Visible strict c := by
  constructor
  · rintro (rfl | rfl | rfl)
    · exact class_ne h hblank.1 rfl
    · exact class_ne h hblank.2.1 rfl
    · exact class_ne h hblank.2.2 rfl
  · rintro ⟨hstrict, rfl | rfl⟩
    · exact class_ne h (htab hstrict).1 rfl
    · exact class_ne h (htab hstrict).2 rfl

theorem alpha_visible {strict : Bool} {c : UInt8} (h : isAlpha c = true) : Visible strict c :=
  class_visible h (by decide) (fun _ => by decide)

theorem server_visible {strict : Bool} {c : UInt8} (h : isServerChar c = true) : Visible strict c :=
  class_visible h (by decide) (fun _ => by decide)

theorem urlChar_visible {strict : Bool} {c : UInt8} (h : isUrlChar strict c = true) :
    Visible strict c := by
  refine class_visible h ?_ ?_
  · cases strict <;> decide
  · rintro rfl
    decide

theorem not_visible_dead {strict : Bool} {c : UInt8} (h : ¬Visible strict c) (s : State) :
    parseUrlChar strict s c = .dead := by
  by_cases hblank : c = ' ' ∨ c = CR ∨ c = LF
  · exact if_pos hblank
  by_cases htab : strict = true ∧ (c = '\t' ∨ c = 12)
  · exact (if_neg hblank).trans (if_pos htab)
  · exact absurd ⟨hblank, htab⟩ h

theorem live_visible {strict : Bool} {c : UInt8} {s : State}
    (h : parseUrlChar strict s c ≠ .dead) : Visible strict c :=
  by_contra fun hn => h (not_visible_dead hn s)

theorem serverChar_stays {c : UInt8} (h : isServerChar c = true) : serverChar c = .reqServer := by
  obtain ⟨hat, hslash, hquestion⟩ := server_char c h
  rw [serverChar, if_neg hslash, if_neg hquestion, if_neg hat]
  exact if_pos h

theorem server_stays (strict : Bool) (c : UInt8) (h : isServerChar c = true) :
    ∀ s ∈ [State.reqServerStart, .reqServer, .reqServerWithAt],
      parseUrlChar strict s c = .reqServer := by
  have hvisible : Visible strict c := server_visible h
  have hserver := serverChar_stays h
  simp only [List.forall_mem_cons, parseUrlChar, if_neg hvisible.1, if_neg hvisible.2,
    if_neg (server_char c h).1]
  exact ⟨hserver, hserver, hserver, by simp⟩

theorem server_step (strict : Bool) (c : UInt8) (hslash : c ≠ '/') (hquestion : c ≠ '?') :
    ∀ s ∈ [State.reqServerStart, .reqServer, .reqServerWithAt],
      parseUrlChar strict s c = .dead ∨
        (parseUrlChar strict s c = .reqServerWithAt ∧ c = '@') ∨
        (parseUrlChar strict s c = .reqServer ∧ c ≠ '@') := by
  have hserver : serverChar c = .dead ∨ (serverChar c = .reqServerWithAt ∧ c = '@') ∨
      (serverChar c = .reqServer ∧ c ≠ '@') := by
    rw [serverChar, if_neg hslash, if_neg hquestion]
    split_ifs with hat hclass
    · exact Or.inr (Or.inl ⟨rfl, hat⟩)
    · exact Or.inr (Or.inr ⟨rfl, hat⟩)
    · exact Or.inl rfl
  intro s hs
  by_cases hvisible : Visible strict c
  · rcases List.mem_cons.mp hs with rfl | hs
    · rwa [parseUrlChar, if_neg hvisible.1, if_neg hvisible.2]
    rcases List.mem_pair.mp hs with rfl | rfl
    · rwa [parseUrlChar, if_neg hvisible.1, if_neg hvisible.2]
    · rw [parseUrlChar, if_neg hvisible.1, if_neg hvisible.2]
      split_ifs
      · exact Or.inl rfl
      · exact hserver
  · exact Or.inl (not_visible_dead hvisible s)

theorem dead_stays (strict : Bool) (c : UInt8) : parseUrlChar strict .dead c = .dead := by
  by_cases hvisible : Visible strict c
  · exact (if_neg hvisible.1).trans (if_neg hvisible.2)
  · exact not_visible_dead hvisible .dead

theorem alpha_enters (strict : Bool) (c : UInt8) (h : isAlpha c = true) :
    parseUrlChar strict .reqSpacesBeforeUrl c = .reqSchema ∧
      parseUrlChar strict .reqSchema c = .reqSchema ∧ c ≠ ':' := by
  have hvisible : Visible strict c := alpha_visible h
  refine ⟨?_, ?_, class_ne h (by decide)⟩
  · rw [parseUrlChar, if_neg hvisible.1, if_neg hvisible.2]
    have hother : ¬(c = '/' ∨ c = '*') := by
      rintro (rfl | rfl)
      · exact class_ne h (by decide) rfl
      · exact class_ne h (by decide) rfl
    exact (if_neg hother).trans (if_pos h)
  · rw [parseUrlChar, if_neg hvisible.1, if_neg hvisible.2]
    exact if_pos h

theorem url_stays (strict : Bool) (c : UInt8) (h : isUrlChar strict c = true) :
    parseUrlChar strict .reqPath c = .reqPath := by
  have hvisible := urlChar_visible h
  rw [parseUrlChar, if_neg hvisible.1, if_neg hvisible.2]
  exact if_pos h

theorem queryChar_visible {strict : Bool} {c : UInt8} (h : isQueryChar strict c = true) :
    Visible strict c := by
  refine class_visible h ?_ ?_
  · cases strict <;> decide
  · rintro rfl
    decide

theorem fragmentChar_visible {strict : Bool} {c : UInt8} (h : isFragmentChar strict c = true) :
    Visible strict c := by
  refine class_visible h ?_ ?_
  · cases strict <;> decide
  · rintro rfl
    decide

theorem query_stays (strict : Bool) (c : UInt8) (h : isQueryChar strict c = true) :
    parseUrlChar strict .reqQueryStringStart c = .reqQueryString ∧
      parseUrlChar strict .reqQueryString c = .reqQueryString := by
  have hvisible := queryChar_visible h
  rw [isQueryChar, Bool.or_eq_true, decide_eq_true_iff] at h
  rw [parseUrlChar, parseUrlChar, if_neg hvisible.1, if_neg hvisible.2]
  simp only [and_self]
  split_ifs with hurl hquestion
  · rfl
  · rfl
  · exact absurd h (not_or.mpr ⟨hurl, hquestion⟩)
  · exact absurd h (not_or.mpr ⟨hurl, hquestion⟩)

theorem fragment_stays (strict : Bool) (c : UInt8) (h : isFragmentChar strict c = true) :
    (c ≠ '#' → parseUrlChar strict .reqFragmentStart c = .reqFragment) ∧
      parseUrlChar strict .reqFragment c = .reqFragment := by
  have hvisible := fragmentChar_visible h
  simp only [isFragmentChar, Bool.or_eq_true, decide_eq_true_iff] at h
  constructor
  · intro hsign
    rw [parseUrlChar, if_neg hvisible.1, if_neg hvisible.2]
    rcases h with (h | h) | h
    · exact if_pos h
    · rw [if_pos h, ite_self]
    · exact absurd h hsign
  · rw [parseUrlChar, if_neg hvisible.1, if_neg hvisible.2]
    rcases h with (h | h) | h
    · exact if_pos h
    · rw [if_pos (Or.inl h), ite_self]
    · rw [if_pos (Or.inr h), ite_self]

theorem question_enters (strict : Bool) : ∀ s ∈ [State.reqServer, .reqPath],
    parseUrlChar strict s ('?' : UInt8) = .reqQueryStringStart := by
  cases strict <;> decide

theorem sign_enters (strict : Bool) :
    ∀ s ∈ [State.reqPath, .reqQueryStringStart, .reqQueryString],
      parseUrlChar strict s ('#' : UInt8) = .reqFragmentStart := by
  cases strict <;> decide

theorem userinfo_stays (strict : Bool) (c : UInt8) (h : isUserinfoChar c = true) :
    parseHostChar strict .userinfoStart c = .userinfo ∧
      parseHostChar strict .userinfo c = .userinfo := by
  have hat : c ≠ '@' := class_ne h (by decide)
  simp only [parseHostChar, if_neg hat, if_pos h, and_self]

theorem host_stays (strict : Bool) (c : UInt8) (h : isHostChar strict c = true) :
    parseHostChar strict .hostStart c = .host ∧ parseHostChar strict .host c = .host := by
  have hbracket : c ≠ '[' := userinfo_bracket c (hostChar_userinfo strict c h)
  simp only [parseHostChar, if_neg hbracket, if_pos h, and_self]

theorem v6_stays (strict : Bool) (c : UInt8) (h : isV6Char c = true) :
    parseHostChar strict .hostV6Start c = .hostV6 ∧ parseHostChar strict .hostV6 c = .hostV6 := by
  have hbracket : c ≠ ']' := class_ne h (by decide)
  simp only [parseHostChar, if_neg hbracket, if_pos h, and_self]

theorem zone_stays (strict : Bool) (c : UInt8) (h : isZoneChar c = true) :
    parseHostChar strict .hostV6ZoneStart c = .hostV6Zone ∧
      parseHostChar strict .hostV6Zone c = .hostV6Zone := by
  have hbracket : c ≠ ']' := class_ne h (by decide)
  simp only [parseHostChar, if_neg hbracket, if_pos h, and_self]

theorem port_stays (strict : Bool) (c : UInt8) (h : isNum c = true) :
    parseHostChar strict .hostPortStart c = .hostPort ∧
      parseHostChar strict .hostPort c = .hostPort := by
  simp only [parseHostChar, if_pos h, and_self]

end Characters

section Spans

variable {u : HttpParserUrl} {uf : UrlField} {pos off len : ℕ}

def span (u : HttpParserUrl) (uf : UrlField) (off len : ℕ) : HttpParserUrl :=
  { u with field := Function.update u.field uf (some ⟨off, len⟩) }

def put (u : HttpParserUrl) (uf : UrlField) (pos : ℕ) (w : Bytes) : HttpParserUrl :=
  if w = [] then u else span u uf (pos % 2^16) w.length

theorem begin_eq : u.begin uf pos = span u uf (pos % 2^16) 1 := rfl

theorem grow_span (h : len+1 < 2^16) :
    (span u uf off len).grow uf = span u uf off (len+1) := by
  simp only [span, HttpParserUrl.grow, Function.update_self, Option.map_some,
    Function.update_idem, Nat.mod_eq_of_lt h]

theorem put_ne_nil {w : Bytes} (h : w ≠ []) : put u uf pos w = span u uf (pos % 2^16) w.length :=
  if_neg h

end Spans

section UrlLoop

/-! The loop over a URL, piece by piece. -/

variable {s t : State} {uf : UrlField} {old : Option UrlField} {fa : Bool} {u : HttpParserUrl}
  {pos off len : ℕ} {c : UInt8} {w rest : Bytes}

theorem urlLoop_delimiter (ht : parseUrlChar strict s c = t) (hlive : t ≠ .dead)
    (hfield : urlField t = none) :
    urlLoop strict (c::rest) pos s old fa u = urlLoop strict rest (pos+1) t old fa u := by
  have hat : t ≠ .reqServerWithAt := by
    rintro rfl
    cases hfield
  simp only [urlLoop, ht, if_neg hlive, hfield, decide_eq_false hat, Bool.or_false]

theorem urlLoop_begin (ht : parseUrlChar strict s c = t) (hfield : urlField t = some uf)
    (hold : old ≠ some uf) :
    urlLoop strict (c::rest) pos s old fa u =
      urlLoop strict rest (pos+1) t (some uf) (fa || t = .reqServerWithAt)
        (span u uf (pos % 2^16) 1) := by
  have hlive : t ≠ .dead := by
    rintro rfl
    cases hfield
  simp only [urlLoop, ht, if_neg hlive, hfield, if_neg hold, begin_eq]

theorem urlLoop_grow (ht : parseUrlChar strict s c = t) (hfield : urlField t = some uf)
    (hlen : len+1 < 2^16) :
    urlLoop strict (c::rest) pos s (some uf) fa (span u uf off len) =
      urlLoop strict rest (pos+1) t (some uf) (fa || t = .reqServerWithAt)
        (span u uf off (len+1)) := by
  have hlive : t ≠ .dead := by
    rintro rfl
    cases hfield
  simp only [urlLoop, ht, if_neg hlive, hfield, if_true, grow_span hlen]

theorem urlLoop_stay (hfield : urlField s = some uf) (hat : s ≠ .reqServerWithAt)
    (hstay : ∀ c ∈ w, parseUrlChar strict s c = s) (hlen : len+w.length < 2^16) :
    urlLoop strict (w ++ rest) pos s (some uf) fa (span u uf off len) =
      urlLoop strict rest (pos+w.length) s (some uf) fa (span u uf off (len+w.length)) := by
  induction w generalizing pos len with
  | nil => rfl
  | cons c w ih =>
    obtain ⟨hc, hw⟩ := List.forall_mem_cons.mp hstay
    rw [List.length_cons] at hlen
    rw [List.cons_append, urlLoop_grow hc hfield (by omega), decide_eq_false hat, Bool.or_false,
      ih hw (by omega), List.length_cons, Nat.add_assoc pos, Nat.add_assoc len, Nat.add_comm 1]

theorem urlLoop_field (hfield : urlField t = some uf) (hat : t ≠ .reqServerWithAt)
    (hold : old ≠ some uf) (henter : ∀ c ∈ w.head?, parseUrlChar strict s c = t)
    (hstay : ∀ c ∈ w.tail, parseUrlChar strict t c = t) (hlen : w.length < 2^16) :
    urlLoop strict (w ++ rest) pos s old fa u =
      urlLoop strict rest (pos+w.length) (if w = [] then s else t)
        (if w = [] then old else some uf) fa (put u uf pos w) := by
  cases w with
  | nil => rfl
  | cons c w =>
    have hw : ∀ c ∈ w, parseUrlChar strict t c = t := hstay
    rw [List.length_cons] at hlen
    rw [if_neg (List.cons_ne_nil c w), if_neg (List.cons_ne_nil c w),
      put_ne_nil (List.cons_ne_nil c w), List.cons_append,
      urlLoop_begin (henter c rfl) hfield hold, decide_eq_false hat, Bool.or_false,
      urlLoop_stay hfield hat hw (by omega), List.length_cons, Nat.add_assoc pos, Nat.add_comm 1]

theorem server_states (hfield : urlField s = some .host) :
    s ∈ [State.reqServerStart, .reqServer, .reqServerWithAt] := by
  cases s <;> first | decide | cases hfield

theorem server_next (hs : s ∈ [State.reqServerStart, .reqServer, .reqServerWithAt])
    (hc : c ≠ '/' ∧ c ≠ '?')
    (hlive : w.foldl (parseUrlChar strict) (parseUrlChar strict s c) ≠ .dead) :
    urlField (parseUrlChar strict s c) = some .host ∧
      decide (parseUrlChar strict s c = .reqServerWithAt) = decide (('@' : UInt8) = c) := by
  rcases server_step strict c hc.1 hc.2 s hs with hd | ⟨ht, hat⟩ | ⟨ht, hat⟩
  · rw [hd, Machine.foldl_dead (dead_stays strict)] at hlive
    exact absurd rfl hlive
  · rw [ht, hat]
    decide
  · rw [ht, decide_eq_false (Ne.symm hat)]
    decide

theorem urlLoop_server (hfield : urlField s = some .host) (hw : ∀ c ∈ w, c ≠ '/' ∧ c ≠ '?')
    (hlive : w.foldl (parseUrlChar strict) s ≠ .dead) (hlen : len+w.length < 2^16) :
    urlLoop strict (w ++ rest) pos s (some .host) fa (span u .host off len) =
      urlLoop strict rest (pos+w.length) (w.foldl (parseUrlChar strict) s) (some .host)
        (fa || decide (('@' : UInt8) ∈ w)) (span u .host off (len+w.length)) := by
  induction w generalizing pos len s fa with
  | nil => simp
  | cons c w ih =>
    obtain ⟨hc, hrest⟩ := List.forall_mem_cons.mp hw
    rw [List.foldl_cons] at hlive
    rw [List.length_cons] at hlen
    have hnext := server_next (server_states hfield) hc hlive
    rw [List.cons_append, urlLoop_grow rfl hnext.1 (by omega), hnext.2,
      ih hnext.1 hrest hlive (by omega), List.foldl_cons, Bool.or_assoc, List.length_cons,
      Nat.add_assoc pos, Nat.add_assoc len, Nat.add_comm 1]
    simp only [List.mem_cons, Bool.decide_or]

theorem server_field (hfield : urlField s = some .host) (hw : ∀ c ∈ w, c ≠ '/' ∧ c ≠ '?')
    (hlive : w.foldl (parseUrlChar strict) s ≠ .dead) :
    urlField (w.foldl (parseUrlChar strict) s) = some .host := by
  induction w generalizing s with
  | nil => exact hfield
  | cons c w ih =>
    obtain ⟨hc, hrest⟩ := List.forall_mem_cons.mp hw
    rw [List.foldl_cons] at hlive ⊢
    exact ih (server_next (server_states hfield) hc hlive).1 hrest hlive

theorem urlLoop_first (hne : w ≠ []) (hw : ∀ c ∈ w, c ≠ '/' ∧ c ≠ '?')
    (hlive : w.foldl (parseUrlChar strict) .reqServerStart ≠ .dead) (hlen : w.length < 2^16) :
    urlField (w.foldl (parseUrlChar strict) .reqServerStart) = some .host ∧
      urlLoop strict (w ++ rest) pos .reqServerStart (some .schema) false u =
        urlLoop strict rest (pos+w.length) (w.foldl (parseUrlChar strict) .reqServerStart)
          (some .host) (decide (('@' : UInt8) ∈ w)) (span u .host (pos % 2^16) w.length) := by
  obtain ⟨c, w, rfl⟩ := List.exists_cons_of_ne_nil hne
  obtain ⟨hc, hrest⟩ := List.forall_mem_cons.mp hw
  rw [List.foldl_cons] at hlive
  rw [List.length_cons] at hlen
  have hfirst := server_next (by decide) hc hlive
  constructor
  · rw [List.foldl_cons]
    exact server_field hfirst.1 hrest hlive
  rw [List.cons_append, urlLoop_begin rfl hfirst.1 (by decide), hfirst.2,
    urlLoop_server hfirst.1 hrest hlive (by omega), List.foldl_cons, List.length_cons,
    Nat.add_assoc pos, Nat.add_comm 1, Bool.false_or]
  simp only [List.mem_cons, Bool.decide_or]

end UrlLoop

section HostLoop

/-! The loop over an authority. -/

variable {s t : HostState} {uf : UrlField} {u : HttpParserUrl} {pos off len : ℕ} {c : UInt8}
  {w rest : Bytes}

def hostUrlField : HostState → Option UrlField
  | .host => some .host
  | .hostV6 => some .host
  | .hostV6Zone => some .host
  | .hostPort => some .port
  | .userinfo => some .userinfo
  | _ => none

theorem hostLoop_step (ht : parseHostChar strict s c = t) (hlive : t ≠ .dead) :
    hostLoop strict (c::rest) pos s u = hostLoop strict rest (pos+1) t (hostField s t pos u) := by
  simp only [hostLoop, ht, if_neg hlive]

theorem hostField_grow (hfield : hostUrlField t = some uf) (hlen : len+1 < 2^16) :
    hostField t t pos (span u uf off len) = span u uf off (len+1) := by
  cases t <;> cases hfield <;> simp only [hostField, if_true, grow_span hlen]

theorem hostLoop_stay (hfield : hostUrlField t = some uf)
    (hstay : ∀ c ∈ w, parseHostChar strict t c = t) (hlen : len+w.length < 2^16) :
    hostLoop strict (w ++ rest) pos t (span u uf off len) =
      hostLoop strict rest (pos+w.length) t (span u uf off (len+w.length)) := by
  have hlive : t ≠ .dead := by
    rintro rfl
    cases hfield
  induction w generalizing pos len with
  | nil => rfl
  | cons c w ih =>
    obtain ⟨hc, hw⟩ := List.forall_mem_cons.mp hstay
    rw [List.length_cons] at hlen
    rw [List.cons_append, hostLoop_step hc hlive, hostField_grow hfield (by omega),
      ih hw (by omega), List.length_cons, Nat.add_assoc pos, Nat.add_assoc len, Nat.add_comm 1]

theorem hostLoop_field (hfield : hostUrlField t = some uf) (hne : w ≠ [])
    (henter : ∀ c ∈ w.head?, parseHostChar strict s c = t)
    (hbegin : hostField s t pos u = span u uf (pos % 2^16) 1)
    (hstay : ∀ c ∈ w.tail, parseHostChar strict t c = t) (hlen : w.length < 2^16) :
    hostLoop strict (w ++ rest) pos s u =
      hostLoop strict rest (pos+w.length) t (span u uf (pos % 2^16) w.length) := by
  have hlive : t ≠ .dead := by
    rintro rfl
    cases hfield
  cases w with
  | nil => exact absurd rfl hne
  | cons c w =>
    have hw : ∀ c ∈ w, parseHostChar strict t c = t := hstay
    rw [List.length_cons] at hlen
    rw [List.cons_append, hostLoop_step (henter c rfl) hlive, hbegin,
      hostLoop_stay hfield hw (by omega), List.length_cons, Nat.add_assoc pos, Nat.add_comm 1]

def Fresh (u : HttpParserUrl) : Prop := ((u.field .host).map HttpUrl.Span.len).getD 0 = 0

theorem host_begin (hs : s = .hostStart ∧ t = .host ∨ s = .hostV6Start ∧ t = .hostV6)
    (hu : Fresh u) : hostField s t pos u = span u .host (pos % 2^16) 1 := by
  rw [Fresh] at hu
  rcases hs with ⟨rfl, rfl⟩ | ⟨rfl, rfl⟩
  · simp [hostField, hu, span]
  · simp [hostField, hu, span]

theorem hostLoop_zone (hne : w ≠ []) (hw : ∀ c ∈ w, isZoneChar c = true)
    (hlen : len+w.length+1 < 2^16) :
    hostLoop strict (('%' : UInt8)::w ++ rest) pos .hostV6 (span u .host off len) =
      hostLoop strict rest (pos+(w.length+1)) .hostV6Zone
        (span u .host off (len+(w.length+1))) := by
  obtain ⟨c, w, rfl⟩ := List.exists_cons_of_ne_nil hne
  obtain ⟨hc, hrest⟩ := List.forall_mem_cons.mp hw
  have hpercent : parseHostChar strict .hostV6 ('%' : UInt8) = .hostV6ZoneStart := by
    cases strict <;> decide
  rw [List.length_cons] at hlen
  rw [List.cons_append, hostLoop_step hpercent (by decide), List.cons_append,
    hostLoop_step (zone_stays strict c hc).1 (by decide)]
  simp only [hostField, grow_span (show len+1 < 2^16 by omega),
    grow_span (show len+1+1 < 2^16 by omega)]
  rw [hostLoop_stay rfl (fun c hc => (zone_stays strict c (hrest c hc)).2) (by omega)]
  rw [List.length_cons, show pos+1+1+w.length = pos+(w.length+1+1) by omega,
    show len+1+1+w.length = len+(w.length+1+1) by omega]

theorem hostLoop_v6 (hw : IsV6 w) (hu : Fresh u) (hlen : w.length < 2^16) :
    hostLoop strict (w ++ (']' : UInt8)::rest) pos .hostV6Start u =
      hostLoop strict rest (pos+w.length+1) .hostV6End (span u .host (pos % 2^16) w.length) := by
  obtain ⟨v, zone, rfl, hne, hv, hzone⟩ := hw
  rw [List.length_append] at hlen
  rw [List.append_assoc, hostLoop_field (t := .hostV6) rfl hne
    (fun c hc => (v6_stays strict c (hv c (List.mem_of_mem_head? hc))).1)
    (host_begin (.inr ⟨rfl, rfl⟩) hu)
    (fun c hc => (v6_stays strict c (hv c (List.mem_of_mem_tail hc))).2) (by omega)]
  have hclose : ∀ s ∈ [HostState.hostV6, .hostV6Zone],
      parseHostChar strict s (']' : UInt8) = .hostV6End := by
    cases strict <;> decide
  rcases hzone with rfl | ⟨id, rfl, hid, hzone⟩
  · rw [List.nil_append, hostLoop_step (hclose _ (by decide)) (by decide), List.append_nil]
    rfl
  · rw [List.length_cons] at hlen
    rw [hostLoop_zone hid hzone (by omega), hostLoop_step (hclose _ (by decide)) (by decide),
      List.length_append, List.length_cons, Nat.add_assoc pos]
    rfl

theorem hostLoop_userinfo (hw : ∀ c ∈ w, isUserinfoChar c = true) (hlen : w.length < 2^16) :
    hostLoop strict (w ++ ('@' : UInt8)::rest) pos .userinfoStart u =
      hostLoop strict rest (pos+w.length+1) .hostStart (put u .userinfo pos w) := by
  have hat : ∀ s ∈ [HostState.userinfoStart, .userinfo],
      parseHostChar strict s ('@' : UInt8) = .hostStart := by
    cases strict <;> decide
  by_cases hne : w = []
  · subst hne
    rw [List.nil_append, hostLoop_step (hat _ (by decide)) (by decide)]
    rfl
  · rw [hostLoop_field (t := .userinfo) rfl hne
      (fun c hc => (userinfo_stays strict c (hw c (List.mem_of_mem_head? hc))).1) rfl
      (fun c hc => (userinfo_stays strict c (hw c (List.mem_of_mem_tail hc))).2) hlen,
      hostLoop_step (hat _ (by decide)) (by decide), put_ne_nil hne]
    rfl

theorem hostLoop_port (hs : s = .host ∨ s = .hostV6End) (hne : w ≠ [])
    (hw : ∀ c ∈ w, isNum c = true) (hlen : w.length < 2^16) :
    hostLoop strict ((':' : UInt8)::w) pos s u = some (.hostPort, put u .port (pos+1) w) := by
  have hcolon : parseHostChar strict s (':' : UInt8) = .hostPortStart := by
    rcases hs with rfl | rfl <;> cases strict <;> decide
  have hskip : hostField s .hostPortStart pos u = u := rfl
  have hdigits : hostLoop strict (w ++ []) (pos+1) .hostPortStart u =
      some (.hostPort, span u .port ((pos+1) % 2^16) w.length) := hostLoop_field rfl hne
    (fun c hc => (port_stays strict c (hw c (List.mem_of_mem_head? hc))).1) rfl
    (fun c hc => (port_stays strict c (hw c (List.mem_of_mem_tail hc))).2) hlen
  rw [List.append_nil] at hdigits
  rw [hostLoop_step hcolon (by decide), hskip, hdigits, put_ne_nil hne]

theorem fresh_put_userinfo (hu : Fresh u) (pos : ℕ) (w : Bytes) :
    Fresh (put u .userinfo pos w) := by
  rw [put]
  split_ifs
  · exact hu
  · exact hu

theorem hostLoop_host (a : Authority strict) (hu : Fresh u) (hlen : a.host.length < 2^16) :
    hostLoop strict (a.openText ++ a.host ++ a.closeText ++ rest) pos .hostStart u =
      hostLoop strict rest (pos+(a.openText ++ a.host ++ a.closeText).length)
        (if a.bracketed then .hostV6End else .host)
        (span u .host ((pos+a.openText.length) % 2^16) a.host.length) := by
  cases hb : a.bracketed with
  | false =>
    obtain ⟨hne, hw⟩ := a.plain_ok hb
    have hopen : a.openText = [] := by simp [Authority.openText, hb]
    have hclose : a.closeText = [] := by simp [Authority.closeText, hb]
    rw [hopen, hclose, List.nil_append, List.append_nil]
    exact hostLoop_field rfl hne
      (fun c hc => (host_stays strict c (hw c (List.mem_of_mem_head? hc))).1)
      (host_begin (.inl ⟨rfl, rfl⟩) hu)
      (fun c hc => (host_stays strict c (hw c (List.mem_of_mem_tail hc))).2) hlen
  | true =>
    have hopen : a.openText = [('[' : UInt8)] := by simp [Authority.openText, hb]
    have hclose : a.closeText = [(']' : UInt8)] := by simp [Authority.closeText, hb]
    have hbracket : parseHostChar strict .hostStart ('[' : UInt8) = .hostV6Start := by
      cases strict <;> decide
    have hskip : hostField .hostStart .hostV6Start pos u = u := rfl
    have hlength : pos+([('[' : UInt8)] ++ a.host ++ [(']' : UInt8)]).length =
        pos+1+a.host.length+1 := by
      simp only [List.length_append, List.length_singleton]
      omega
    rw [hopen, hclose, hlength, List.append_assoc, List.append_assoc, List.singleton_append,
      List.singleton_append, hostLoop_step hbracket (by decide), hskip,
      hostLoop_v6 (a.bracketed_ok hb) hu hlen]
    rfl

def authorityFields (a : Authority strict) (pos : ℕ) (u : HttpParserUrl) : HttpParserUrl :=
  put (span (put u .userinfo pos (a.userinfo.getD [])) .host
    ((pos+(a.userinfoText ++ a.openText).length) % 2^16) a.host.length) .port
    (pos+(a.userinfoText ++ (a.openText ++ a.host ++ a.closeText)).length+1) (a.port.getD [])

theorem hostLoop_behind (a : Authority strict) (pos : ℕ) (hu : Fresh u)
    (hlen : a.host.length < 2^16 ∧ a.portText.length < 2^16) :
    ∃ s, hostMayEnd s = true ∧
      hostLoop strict (a.openText ++ a.host ++ a.closeText ++ a.portText) pos .hostStart u =
        some (s, put (span u .host ((pos+a.openText.length) % 2^16) a.host.length) .port
          (pos+(a.openText ++ a.host ++ a.closeText).length+1) (a.port.getD [])) := by
  rw [hostLoop_host a hu hlen.1]
  cases hport : a.port with
  | none =>
    rw [Authority.portText, hport]
    refine ⟨if a.bracketed then .hostV6End else .host, ?_, rfl⟩
    split_ifs <;> rfl
  | some d =>
    obtain ⟨hne, hd⟩ := a.port_ok d hport
    have hsize := hlen.2
    rw [Authority.portText, hport, List.length_cons] at hsize
    rw [Authority.portText, hport]
    refine ⟨.hostPort, rfl, ?_⟩
    refine hostLoop_port ?_ hne hd (by omega)
    split_ifs
    · exact .inr rfl
    · exact .inl rfl

theorem hostLoop_authority (a : Authority strict) (pos : ℕ) (hu : Fresh u)
    (hlen : a.text.length < 2^16) :
    ∃ s, hostMayEnd s = true ∧
      hostLoop strict a.text pos (if a.userinfo.isSome then .userinfoStart else .hostStart) u =
        some (s, authorityFields a pos u) := by
  have hsize := hlen
  simp only [Authority.text, List.length_append] at hsize
  cases hui : a.userinfo with
  | none =>
    have htext : a.userinfoText = [] := by simp [Authority.userinfoText, hui]
    have h := hostLoop_behind a pos hu (by omega)
    rw [Authority.text, authorityFields, htext, hui]
    exact h
  | some w =>
    have htext : a.userinfoText = w ++ [('@' : UInt8)] := by
      simp [Authority.userinfoText, hui]
    rw [htext, List.length_append, List.length_singleton] at hsize
    have h := hostLoop_behind a (pos+w.length+1) (fresh_put_userinfo hu pos w) (by omega)
    have hat : a.text =
        w ++ ('@' : UInt8)::(a.openText ++ a.host ++ a.closeText ++ a.portText) := by
      rw [Authority.text, htext]
      simp
    have hoff : ∀ l : Bytes, pos+(w ++ [('@' : UInt8)] ++ l).length = pos+w.length+1+l.length := by
      intro l
      simp only [List.length_append, List.length_singleton]
      omega
    rw [hat, authorityFields, htext, hui, hoff, hoff]
    simp only [Option.isSome_some, if_true, Option.getD_some]
    rw [hostLoop_userinfo (a.userinfo_ok w hui) (by omega)]
    exact h

end HostLoop

section TailLoop

variable {s : State} {old : Option UrlField} {fa : Bool} {u : HttpParserUrl} {pos : ℕ}
  {rest : Bytes}

theorem urlLoop_signs (n : ℕ) :
    urlLoop strict (List.replicate n ('#' : UInt8) ++ rest) pos .reqFragmentStart old fa u =
      urlLoop strict rest (pos+n) .reqFragmentStart old fa u := by
  have hsign : parseUrlChar strict .reqFragmentStart ('#' : UInt8) = .reqFragmentStart := by
    cases strict <;> decide
  induction n generalizing pos with
  | zero => rfl
  | succ n ih =>
    rw [List.replicate_succ, List.cons_append, urlLoop_delimiter hsign (by decide) rfl, ih,
      Nat.add_assoc, Nat.add_comm 1]

theorem urlLoop_fragment (t : Tail strict) (hlen : t.text.length < 2^16)
    (hs : t.fragment.isSome → s ∈ [State.reqPath, .reqQueryStringStart, .reqQueryString])
    (hold : old ≠ some .fragment) :
    urlLoop strict t.fragmentText pos s old fa u =
      some (put u .fragment (pos+1+(t.fragment.map Prod.fst).getD 0)
        ((t.fragment.map Prod.snd).getD []), fa) := by
  cases hf : t.fragment with
  | none =>
    rw [Tail.fragmentText, hf]
    rfl
  | some f =>
    obtain ⟨hchars, hhead⟩ := t.fragment_ok f hf
    have hsign := sign_enters strict s (hs (by rw [hf]; rfl))
    have hsize : f.2.length < 2^16 := by
      simp only [Tail.text, Tail.fragmentText, hf, List.length_append, List.length_cons] at hlen
      omega
    have hloop : urlLoop strict (f.2 ++ []) (pos+1+f.1) .reqFragmentStart old fa u =
        some (put u .fragment (pos+1+f.1) f.2, fa) := urlLoop_field (t := .reqFragment) rfl
      (by decide) hold (fun c hc => (fragment_stays strict c (hchars c (List.mem_of_mem_head? hc))).1
        (hhead c hc))
      (fun c hc => (fragment_stays strict c (hchars c (List.mem_of_mem_tail hc))).2) hsize
    rw [List.append_nil] at hloop
    rw [Tail.fragmentText, hf]
    change urlLoop strict (('#' : UInt8)::(List.replicate f.1 ('#' : UInt8) ++ f.2)) pos s old fa u
      = _
    rw [urlLoop_delimiter hsign (by decide) rfl, urlLoop_signs, hloop]
    rfl

theorem urlLoop_query (t : Tail strict) (hlen : t.text.length < 2^16)
    (hs : s ∈ [State.reqServer, .reqPath]) (hfragment : t.fragment.isSome → t.query = none →
      s = .reqPath) (hold : old ≠ some .query ∧ old ≠ some .fragment) :
    urlLoop strict (t.queryText ++ t.fragmentText) pos s old fa u =
      some (put (put u .query (pos+1) (t.query.getD [])) .fragment
        (pos+t.queryText.length+1+(t.fragment.map Prod.fst).getD 0)
        ((t.fragment.map Prod.snd).getD []), fa) := by
  cases hq : t.query with
  | none =>
    rw [Tail.queryText, hq, List.nil_append]
    refine urlLoop_fragment t hlen ?_ hold.2
    intro hsome
    rw [hfragment hsome hq]
    decide
  | some q =>
    have hchars := t.query_ok q hq
    have hquestion := question_enters strict s hs
    have hsize : q.length < 2^16 := by
      simp only [Tail.text, Tail.queryText, hq, List.length_append, List.length_cons] at hlen
      omega
    rw [Tail.queryText, hq]
    change urlLoop strict (('?' : UInt8)::(q ++ t.fragmentText)) pos s old fa u = _
    rw [urlLoop_delimiter hquestion (by decide) rfl, urlLoop_field (t := .reqQueryString)
      rfl (by decide) hold.1
      (fun c hc => (query_stays strict c (hchars c (List.mem_of_mem_head? hc))).1)
      (fun c hc => (query_stays strict c (hchars c (List.mem_of_mem_tail hc))).2) hsize,
      urlLoop_fragment t hlen]
    · rw [List.length_cons, Nat.add_assoc pos 1, Nat.add_comm 1 q.length]
      rfl
    · intro _
      split_ifs <;> decide
    · split_ifs
      · exact hold.2
      · decide

def tailFields (t : Tail strict) (pos : ℕ) (u : HttpParserUrl) : HttpParserUrl :=
  put (put (put u .path pos t.path) .query (pos+t.path.length+1) (t.query.getD [])) .fragment
    (pos+t.path.length+t.queryText.length+1+(t.fragment.map Prod.fst).getD 0)
    ((t.fragment.map Prod.snd).getD [])

theorem urlLoop_tail (t : Tail strict) (hlen : t.text.length < 2^16) :
    urlLoop strict t.text pos .reqServer (some .host) fa u = some (tailFields t pos u, fa) := by
  have hslash : ∀ c ∈ t.path.head?, parseUrlChar strict .reqServer c = .reqPath := by
    intro c hc
    rw [(t.path_ok c hc).1]
    cases strict <;> decide
  have hstay : ∀ c ∈ t.path.tail, parseUrlChar strict .reqPath c = .reqPath := by
    intro c hc
    cases hp : t.path with
    | nil =>
      rw [hp] at hc
      cases hc
    | cons d p => exact url_stays strict c ((t.path_ok d (by rw [hp]; rfl)).2 c hc)
  have hsize : t.path.length < 2^16 := by
    simp only [Tail.text, List.length_append] at hlen
    omega
  rw [Tail.text, List.append_assoc, urlLoop_field (t := .reqPath) rfl (by decide)
    (by decide) hslash hstay hsize, urlLoop_query t hlen]
  · rfl
  · split_ifs <;> decide
  · intro hsome hnone
    rcases t.apart hsome with hpath | hquery
    · rw [if_neg hpath]
    · rw [hnone] at hquery
      cases hquery
  · split_ifs <;> decide

end TailLoop

section Text

variable {u : HttpParserUrl} {pos : ℕ} {rest : Bytes}

theorem host_chars (a : Authority strict) : ∀ c ∈ a.host, isUserinfoChar c = true := by
  intro c hc
  cases hb : a.bracketed with
  | false => exact hostChar_userinfo strict c ((a.plain_ok hb).2 c hc)
  | true =>
    obtain ⟨v, zone, hv, -, hchars, hzone⟩ := a.bracketed_ok hb
    rw [hv] at hc
    rcases List.mem_append.mp hc with hc | hc
    · exact v6Char_userinfo c (hchars c hc)
    · rcases hzone with rfl | ⟨id, rfl, -, hid⟩
      · cases hc
      · rcases List.mem_cons.mp hc with rfl | hc
        · decide
        · exact zoneChar_userinfo c (hid c hc)

theorem behind_chars (a : Authority strict) :
    ∀ c ∈ a.openText ++ a.host ++ a.closeText ++ a.portText, isServerChar c = true := by
  have hopen : ∀ c ∈ a.openText ++ a.closeText, isServerChar c = true := by
    intro c hc
    cases hb : a.bracketed with
    | false => simp [Authority.openText, Authority.closeText, hb] at hc
    | true =>
      simp only [Authority.openText, Authority.closeText, hb, if_true, List.cons_append,
        List.nil_append, List.mem_cons, List.not_mem_nil, or_false] at hc
      rcases hc with rfl | rfl
      · decide
      · decide
  have huserinfo : ∀ c, isUserinfoChar c = true → isServerChar c = true := by
    intro c hc
    rw [isServerChar, hc, Bool.true_or, Bool.true_or]
  have hport : ∀ c ∈ a.portText, isServerChar c = true := by
    intro c hc
    rw [Authority.portText] at hc
    cases hp : a.port with
    | none =>
      rw [hp] at hc
      cases hc
    | some d =>
      rw [hp] at hc
      rcases List.mem_cons.mp hc with rfl | hc
      · decide
      · exact huserinfo c (num_userinfo c ((a.port_ok d hp).2 c hc))
  intro c hc
  simp only [List.mem_append] at hc hopen
  rcases hc with ((hc | hc) | hc) | hc
  · exact hopen c (.inl hc)
  · exact huserinfo c (host_chars a c hc)
  · exact hopen c (.inr hc)
  · exact hport c hc

theorem host_ne_nil (a : Authority strict) : a.host ≠ [] := by
  cases hb : a.bracketed with
  | false => exact (a.plain_ok hb).1
  | true =>
    obtain ⟨v, zone, hv, hne, -⟩ := a.bracketed_ok hb
    rw [hv]
    exact List.append_ne_nil_of_left_ne_nil hne zone

theorem userinfo_chars (a : Authority strict) {w : Bytes} (hw : a.userinfo = some w) :
    ∀ c ∈ w, isServerChar c = true := by
  intro c hc
  rw [isServerChar, a.userinfo_ok w hw c hc, Bool.true_or, Bool.true_or]

theorem authority_eq (a : Authority strict) :
    a.text = a.userinfoText ++ (a.openText ++ a.host ++ a.closeText ++ a.portText) := by
  rw [Authority.text, List.append_assoc]

theorem authority_chars (a : Authority strict) : ∀ c ∈ a.text, c ≠ '/' ∧ c ≠ '?' := by
  intro c hc
  rw [authority_eq] at hc
  rcases List.mem_append.mp hc with hc | hc
  · rw [Authority.userinfoText] at hc
    cases hui : a.userinfo with
    | none =>
      rw [hui] at hc
      cases hc
    | some w =>
      rw [hui] at hc
      rcases List.mem_append.mp hc with hc | hc
      · exact (server_char c (userinfo_chars a hui c hc)).2
      · obtain rfl := List.mem_singleton.mp hc
        decide
  · exact (server_char c (behind_chars a c hc)).2

theorem at_mem_iff (a : Authority strict) : ('@' : UInt8) ∈ a.text ↔ a.userinfo.isSome = true := by
  rw [authority_eq, List.mem_append]
  have hbehind : ('@' : UInt8) ∉ a.openText ++ a.host ++ a.closeText ++ a.portText := by
    intro hat
    exact (server_char _ (behind_chars a _ hat)).1 rfl
  rw [Authority.userinfoText]
  cases a.userinfo with
  | none => simpa using hbehind
  | some w => simp

theorem authority_state (a : Authority strict) :
    a.text.foldl (parseUrlChar strict) .reqServerStart = .reqServer := by
  have hbehind : ∀ s ∈ [State.reqServerStart, .reqServer, .reqServerWithAt],
      (a.openText ++ a.host ++ a.closeText ++ a.portText).foldl (parseUrlChar strict) s =
        .reqServer := by
    intro s hs
    apply Machine.foldl_enter
    · simp [host_ne_nil a]
    · intro c hc
      exact server_stays strict c (behind_chars a c (List.mem_of_mem_head? hc)) s hs
    · intro c hc
      exact server_stays strict c (behind_chars a c (List.mem_of_mem_tail hc)) _ (by decide)
  rw [authority_eq, List.foldl_append, Authority.userinfoText]
  cases hui : a.userinfo with
  | none => exact hbehind .reqServerStart (by decide)
  | some w =>
    have hchars := userinfo_chars a hui
    apply hbehind
    change (w ++ [('@' : UInt8)]).foldl (parseUrlChar strict) .reqServerStart ∈ _
    have hat : ∀ s ∈ [State.reqServerStart, .reqServer],
        parseUrlChar strict s ('@' : UInt8) = .reqServerWithAt := by
      cases strict <;> decide
    rw [List.foldl_append, List.foldl_cons, List.foldl_nil]
    by_cases hw : w = []
    · subst hw
      rw [List.foldl_nil, hat _ (by decide)]
      decide
    · rw [Machine.foldl_enter (t := .reqServer) hw
        (fun c hc => server_stays strict c (hchars c (List.mem_of_mem_head? hc)) _ (by decide))
        (fun c hc => server_stays strict c (hchars c (List.mem_of_mem_tail hc)) _ (by decide)),
        hat _ (by decide)]
      decide

theorem authority_ne_nil (a : Authority strict) : a.text ≠ [] := by
  simp [authority_eq, host_ne_nil a]

theorem urlLoop_authority (a : Authority strict) (hlen : a.text.length < 2^16) :
    urlLoop strict (a.text ++ rest) pos .reqServerStart (some .schema) false u =
      urlLoop strict rest (pos+a.text.length) .reqServer (some .host) a.userinfo.isSome
        (span u .host (pos % 2^16) a.text.length) := by
  have hat : decide (('@' : UInt8) ∈ a.text) = a.userinfo.isSome := by
    rw [Bool.eq_iff_iff, decide_eq_true_iff]
    exact at_mem_iff a
  have hlive : a.text.foldl (parseUrlChar strict) .reqServerStart ≠ .dead := by
    rw [authority_state]
    decide
  rw [(urlLoop_first (authority_ne_nil a) (authority_chars a) hlive hlen).2, authority_state, hat]

def loopFields (x : UrlText strict) : HttpParserUrl :=
  tailFields x.tail (x.scheme.length+3+x.authority.text.length)
    (span (put .init .schema 0 x.scheme) .host ((x.scheme.length+3) % 2^16)
      x.authority.text.length)

theorem text_length (x : UrlText strict) :
    x.text.length = x.scheme.length+3+x.authority.text.length+x.tail.text.length := by
  have hsep : (ascii "://").length = 3 := by decide
  simp only [UrlText.text, List.length_append, hsep]
  omega

theorem urlLoop_scheme {w l : Bytes} (hw : w ≠ [] ∧ ∀ c ∈ w, isAlpha c = true)
    (hlen : w.length < 2^16) :
    urlLoop strict (w ++ (ascii "://" ++ l)) 0 .reqSpacesBeforeUrl none false .init =
      urlLoop strict l (w.length+3) .reqServerStart (some .schema) false
        (put .init .schema 0 w) := by
  obtain ⟨hne, halpha⟩ := hw
  have hsep : ∀ r : Bytes, ascii "://" ++ r = (':' : UInt8)::('/' : UInt8)::('/' : UInt8)::r :=
    fun r => rfl
  have hcolon : parseUrlChar strict .reqSchema (':' : UInt8) = .reqSchemaSlash := by
    cases strict <;> decide
  have hslash : parseUrlChar strict .reqSchemaSlash ('/' : UInt8) = .reqSchemaSlashSlash := by
    cases strict <;> decide
  have hslash' : parseUrlChar strict .reqSchemaSlashSlash ('/' : UInt8) = .reqServerStart := by
    cases strict <;> decide
  rw [urlLoop_field (t := .reqSchema) rfl (by decide) (by decide)
    (fun c hc => (alpha_enters strict c (halpha c (List.mem_of_mem_head? hc))).1)
    (fun c hc => (alpha_enters strict c (halpha c (List.mem_of_mem_tail hc))).2.1) hlen,
    if_neg hne, if_neg hne, hsep, urlLoop_delimiter hcolon (by decide) rfl,
    urlLoop_delimiter hslash (by decide) rfl, urlLoop_delimiter hslash' (by decide) rfl,
    Nat.zero_add]

theorem urlLoop_text (x : UrlText strict) (hlen : x.text.length ≤ 2^16+3) :
    urlLoop strict x.text 0 .reqSpacesBeforeUrl none false .init =
      some (loopFields x, x.authority.userinfo.isSome) := by
  have hscheme := List.length_pos_iff.mpr x.scheme_ok.1
  have hauthority := List.length_pos_iff.mpr (authority_ne_nil x.authority)
  rw [text_length] at hlen
  rw [UrlText.text, urlLoop_scheme x.scheme_ok (by omega),
    urlLoop_authority x.authority (by omega), urlLoop_tail x.tail (by omega)]
  rfl

def spans (x : UrlText strict) : HttpParserUrl :=
  ⟨fun uf => UrlText.spanOf (x.offset uf) (x.part uf), 0⟩

theorem field_span (u : HttpParserUrl) (uf uf' : UrlField) (off len : ℕ) :
    (span u uf off len).field uf' = if uf' = uf then some ⟨off, len⟩ else u.field uf' :=
  Function.update_apply u.field uf _ uf'

theorem field_put (u : HttpParserUrl) (uf uf' : UrlField) (pos : ℕ) (w : Bytes) :
    (put u uf pos w).field uf' =
      if w = [] then u.field uf'
      else if uf' = uf then some ⟨pos % 2^16, w.length⟩ else u.field uf' := by
  rw [put]
  split_ifs with hw huf
  · rfl
  · rw [field_span, if_pos huf]
  · rw [field_span, if_neg huf]

theorem put_port (u : HttpParserUrl) (uf : UrlField) (pos : ℕ) (w : Bytes) :
    (put u uf pos w).port = u.port := by
  rw [put]
  split_ifs <;> rfl

theorem final_fields (x : UrlText strict) :
    authorityFields x.authority (x.scheme.length+3)
      (span (loopFields x) .host (x.scheme.length+3) 0) = spans x := by
  have hport : (authorityFields x.authority (x.scheme.length+3)
      (span (loopFields x) .host (x.scheme.length+3) 0)).port = 0 := by
    simp only [authorityFields, loopFields, tailFields, put_port, span, HttpParserUrl.init]
  have hfield : ∀ uf, (authorityFields x.authority (x.scheme.length+3)
      (span (loopFields x) .host (x.scheme.length+3) 0)).field uf =
        UrlText.spanOf (x.offset uf) (x.part uf) := by
    intro uf
    simp only [authorityFields, loopFields, tailFields, field_put, field_span,
      HttpParserUrl.init, UrlText.spanOf]
    cases uf <;> simp [UrlText.offset, UrlText.part, host_ne_nil, Nat.add_assoc]
    all_goals
      congr
  exact congrArg₂ HttpParserUrl.mk (funext hfield) hport

theorem loop_host (x : UrlText strict) (hscheme : x.scheme.length+3 < 2^16) :
    (loopFields x).field .host = some ⟨x.scheme.length+3, x.authority.text.length⟩ ∧
      (loopFields x).field .schema ≠ none := by
  simp [loopFields, tailFields, field_put, field_span, x.scheme_ok.1]
  omega

theorem authority_drop (x : UrlText strict) :
    (x.text.drop (x.scheme.length+3)).take x.authority.text.length = x.authority.text := by
  have hbefore : x.scheme.length+3 = (x.scheme ++ ascii "://").length := by
    rw [List.length_append]
    rfl
  rw [UrlText.text, ← List.append_assoc, hbefore, List.drop_left, List.take_left]

theorem parseHost_eq {buf : Bytes} {u u' : HttpParserUrl} {host : HttpUrl.Span} {fa : Bool}
    {s : HostState} (h : hostLoop strict ((buf.drop host.off).take host.len) host.off
      (if fa then .userinfoStart else .hostStart)
      { u with field := Function.update u.field .host (some ⟨host.off, 0⟩) } = some (s, u'))
    (hend : hostMayEnd s = true) : parseHost strict buf u host fa = some u' := by
  simp only [parseHost, h, hend, if_true]

theorem parseHost_text (x : UrlText strict) (hlen : x.text.length ≤ 2^16+3) :
    parseHost strict x.text (loopFields x) ⟨x.scheme.length+3, x.authority.text.length⟩
      x.authority.userinfo.isSome = some (spans x) := by
  have hscheme := List.length_pos_iff.mpr x.scheme_ok.1
  rw [text_length] at hlen
  have hfresh : Fresh (span (loopFields x) .host (x.scheme.length+3) 0) := by
    rw [Fresh, field_span]
    rfl
  obtain ⟨s, hend, hloop⟩ := hostLoop_authority x.authority (x.scheme.length+3) hfresh
    (by omega)
  rw [final_fields] at hloop
  apply parseHost_eq _ hend
  change hostLoop strict ((x.text.drop (x.scheme.length+3)).take x.authority.text.length)
    (x.scheme.length+3) _ (span (loopFields x) .host (x.scheme.length+3) 0) = _
  rw [authority_drop]
  exact hloop

/-- The parser on a text of the grammar: only the value of the port may be refused. -/
theorem parse_text (x : UrlText strict) (hlen : x.text.length ≤ 2^16+3)
    (hscheme : x.scheme.length+3 < 2^16) :
    parseUrl strict x.text false = match x.authority.port with
      | none => some (spans x)
      | some d => (portLoop ((x.text.drop (x.offset .port % 2^16)).take d.length) 0).map
          fun v => { spans x with port := v } := by
  have hne : x.text ≠ [] := by
    rw [UrlText.text]
    exact List.append_ne_nil_of_left_ne_nil x.scheme_ok.1 _
  obtain ⟨hhost, hschema⟩ := loop_host x hscheme
  have hreject : ¬(((loopFields x).field .schema).isSome = true ∧
      (some (HttpUrl.Span.mk (x.scheme.length+3) x.authority.text.length)).isNone = true) := by
    rintro ⟨-, h⟩
    cases h
  simp only [parseUrl, if_neg hne, Bool.false_eq_true, if_false, false_and,
    urlLoop_text x hlen, hhost, if_neg hreject, parseHost_text x hlen, HttpParserUrl.text]
  have hfield : (spans x).field .port =
      UrlText.spanOf (x.offset .port) (x.authority.port.getD []) := rfl
  rw [hfield]
  cases hport : x.authority.port with
  | none => rfl
  | some d =>
    rw [Option.getD_some, UrlText.spanOf, if_neg (x.authority.port_ok d hport).1]
    rfl

theorem take_between {text before part after : Bytes} (h : text = before ++ (part ++ after)) :
    (text.drop before.length).take part.length = part := by
  rw [h, List.drop_left, List.take_left]

theorem part_text (x : UrlText strict) (uf : UrlField) (hne : x.part uf ≠ []) :
    (x.text.drop (x.offset uf)).take (x.part uf).length = x.part uf := by
  have hbefore : ∀ (before after : Bytes), before.length = x.offset uf →
      x.text = before ++ (x.part uf ++ after) →
        (x.text.drop (x.offset uf)).take (x.part uf).length = x.part uf := by
    intro before after hlen htext
    rw [← hlen]
    exact take_between htext
  have hsep : (ascii "://").length = 3 := rfl
  let start := x.scheme ++ ascii "://"
  let a := x.authority
  let t := x.tail
  cases uf with
  | schema =>
    refine hbefore [] (ascii "://" ++ (a.text ++ t.text)) rfl ?_
    simp [UrlText.text, UrlText.part, a, t]
  | userinfo =>
    cases hui : x.authority.userinfo with
    | none => simp [UrlText.part, hui] at hne
    | some w =>
      refine hbefore start ([('@' : UInt8)] ++ (a.openText ++ a.host ++ a.closeText ++
        a.portText) ++ t.text) ?_ ?_
      · simp [start, hsep, UrlText.offset]
      · simp [UrlText.text, UrlText.part, Authority.text, Authority.userinfoText, hui, start, a, t]
  | host =>
    refine hbefore (start ++ (a.userinfoText ++ a.openText)) (a.closeText ++ a.portText ++ t.text)
      ?_ ?_
    · simp [start, hsep, UrlText.offset, a, Nat.add_assoc]
    · simp [UrlText.text, UrlText.part, Authority.text, start, a, t]
  | port =>
    cases hport : x.authority.port with
    | none => simp [UrlText.part, hport] at hne
    | some d =>
      refine hbefore (start ++ (a.userinfoText ++ (a.openText ++ a.host ++ a.closeText)) ++
        [(':' : UInt8)]) t.text ?_ ?_
      · simp [start, hsep, UrlText.offset, a, Nat.add_assoc]
      · simp [UrlText.text, UrlText.part, Authority.text, Authority.portText, hport, start, a, t]
  | path =>
    refine hbefore (start ++ a.text) (t.queryText ++ t.fragmentText) ?_ ?_
    · simp [start, hsep, UrlText.offset, a, Nat.add_assoc]
    · simp [UrlText.text, UrlText.part, Tail.text, start, a, t]
  | query =>
    cases hq : x.tail.query with
    | none => simp [UrlText.part, hq] at hne
    | some q =>
      refine hbefore (start ++ a.text ++ t.path ++ [('?' : UInt8)]) t.fragmentText ?_ ?_
      · simp [start, hsep, UrlText.offset, a, t, Nat.add_assoc]
      · simp [UrlText.text, UrlText.part, Tail.text, Tail.queryText, hq, start, a, t]
  | fragment =>
    cases hf : x.tail.fragment with
    | none => simp [UrlText.part, hf] at hne
    | some f =>
      refine hbefore (start ++ a.text ++ (t.path ++ t.queryText) ++
        (('#' : UInt8)::List.replicate f.1 ('#' : UInt8))) [] ?_ ?_
      · simp [start, hsep, UrlText.offset, hf, a, t]
        omega
      · simp [UrlText.text, UrlText.part, Tail.text, Tail.fragmentText, hf, start, a, t]

end Text

end Lamb.UrlGrammar
