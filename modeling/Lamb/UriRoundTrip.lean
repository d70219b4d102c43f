import Lamb.Uri
import Lamb.UrlAccepted
import Lamb.HttpContentLength
import Mathlib.Data.Nat.Digits.Lemmas

/-!
# Uris as text

`toString` leaves out the brackets of a host and the port zero stands for no port, so the
text of a uri is read back as the same uri exactly if the host needs no brackets, there is a
scheme, and the text has not grown beyond the offsets of the parser.
-/

set_option autoImplicit false

namespace Lamb.UriRoundTrip
open Lamb.ByteString Lamb.Http Lamb.HttpUrl Lamb.HttpResponseDump Lamb.HttpContentLength
open Lamb.HttpResponseHead Lamb.Uri Lamb.UrlGrammar Lamb.UrlAccepted

def pathOffset (u : Uri) : ℕ :=
  u.scheme.length+3+(if u.userinfo = [] then 0 else u.userinfo.length+1)+u.host.length+
    (if u.isDefaultPort then 0 else 1+(toText u.port).length)

def queryOffset (u : Uri) : ℕ := pathOffset u+u.getPath.length+1

def fragmentOffset (u : Uri) : ℕ :=
  pathOffset u+u.getPath.length+(if u.query = [] then 0 else 1+u.query.length)+1

def Seen (u : Uri) (off : ℕ) (w : Bytes) : Prop :=
  w = [] ∨ off < 2^16 ∨ ((u.scheme ++ ascii ":").drop (off-2^16)).take w.length = w

structure Printable (u : Uri) : Prop where
  scheme : u.scheme ≠ []
  host : ∀ c ∈ u.host, c ≠ ':' ∧ c ≠ '%'
  path : pathOffset u < 2^16
  query : Seen u (queryOffset u) u.query
  fragment : Seen u (fragmentOffset u) u.fragment

section Numbers

theorem number_grows (digits : Bytes) (v : ℕ) :
    v ≤ digits.foldl (fun n c => n*10+(c-48).toNat) v := by
  have hgrows := foldl_grows (digits.map fun c => (c-48).toNat) v
  rwa [List.foldl_map] at hgrows

/-- The loop over the port gives up exactly for values of 17 bits. -/
theorem portLoop_eq (digits : Bytes) (v : ℕ) (hv : v ≤ 0xffff) :
    portLoop digits v =
      if digits.foldl (fun n c => n*10+(c-48).toNat) v ≤ 0xffff then
        some (digits.foldl (fun n c => n*10+(c-48).toNat) v)
      else none := by
  induction digits generalizing v with
  | nil => rw [portLoop, List.foldl_nil, if_pos hv]
  | cons c digits ih =>
    rw [portLoop, List.foldl_cons]
    have hgrows := number_grows digits (v*10+(c-48).toNat)
    by_cases hlarge : 0xffff < v*10+(c-48).toNat
    · rw [if_pos hlarge, if_neg (by omega)]
    · rw [if_neg hlarge]
      exact ih _ (by omega)

theorem num_value {c : UInt8} (h : isNum c = true) : (c-48).toNat ≤ 9 := by
  rw [isNum, decide_eq_true_iff] at h
  have hhigh : c.toNat ≤ 57 := UInt8.le_iff_toNat_le.mp h.2
  have hsub : (c-48).toNat = c.toNat-48 := UInt8.toNat_sub_of_le c 48 h.1
  omega

theorem num_not_space {c : UInt8} (h : isNum c = true) : isSpace c = false := by
  rw [isNum, decide_eq_true_iff] at h
  have hlow : 48 ≤ c.toNat := UInt8.le_iff_toNat_le.mp h.1
  simp only [isSpace, Bool.or_eq_false_iff, Bool.and_eq_false_iff, decide_eq_false_iff_not,
    UInt8.le_iff_toNat_le, ← UInt8.toNat_inj]
  change c.toNat ≠ 32 ∧ (¬9 ≤ c.toNat ∨ ¬c.toNat ≤ 13)
  omega

theorem number_lt (digits : Bytes) (hdigits : ∀ c ∈ digits, isNum c = true) (v : ℕ) :
    digits.foldl (fun n c => n*10+(c-48).toNat) v < (v+1)*10^digits.length := by
  induction digits generalizing v with
  | nil => simp
  | cons c digits ih =>
    obtain ⟨hc, hrest⟩ := List.forall_mem_cons.mp hdigits
    have hbound := num_value hc
    rw [List.foldl_cons, List.length_cons, pow_succ']
    refine Nat.lt_of_lt_of_le (ih hrest _) ?_
    calc (v*10+(c-48).toNat+1)*10^digits.length ≤ ((v+1)*10)*10^digits.length :=
          Nat.mul_le_mul_right _ (by omega)
      _ = (v+1)*(10*10^digits.length) := by rw [Nat.mul_assoc]

theorem decimal_num (n : ℕ) : ∀ c ∈ decimal n, isNum c = true := by
  intro c hc
  obtain ⟨hlow, hhigh⟩ := decimal_range n c hc
  simp [isNum, hlow, hhigh]

theorem number_decimal (n : ℕ) : number (decimal n) = n := by
  rw [number, decimal]
  split_ifs with hn
  · subst hn
    rfl
  · have hback : ∀ a, ∀ d ∈ (Nat.digits 10 n).reverse, a*10+(digit d-48).toNat = a*10+d := by
      intro a d hd
      rw [digit_value (Nat.digits_lt_base (by decide) (List.mem_reverse.mp hd))]
    rw [← List.map_reverse, List.foldl_map, List.foldl_ext _ _ _ hback, digits_value]

/-- A numeral is no longer than any text of digits with its value. -/
theorem decimal_length {digits : Bytes} (hne : digits ≠ [])
    (hdigits : ∀ c ∈ digits, isNum c = true) :
    (decimal (number digits)).length ≤ digits.length := by
  have hlt : number digits < 10^digits.length := by
    have h := number_lt digits hdigits 0
    rwa [Nat.zero_add, Nat.one_mul] at h
  rw [decimal]
  split_ifs
  · exact List.length_pos_iff.mpr hne
  · rw [List.length_reverse, List.length_map]
    exact (Nat.digits_length_le_iff (by decide) _).mpr hlt

/-- `std::stoi` on digits. -/
theorem stoi_digits {digits : Bytes} (hne : digits ≠ [])
    (hdigits : ∀ c ∈ digits, isNum c = true) (hsmall : number digits < 2^31) :
    stoi digits = .ok (number digits) := by
  obtain ⟨c, rest, rfl⟩ := List.exists_cons_of_ne_nil hne
  have hc := hdigits c List.mem_cons_self
  have hspace := num_not_space hc
  have hminus : c ≠ '-' := class_ne hc (by decide)
  have hplus : c ≠ '+' := class_ne hc (by decide)
  have htake : (c::rest).takeWhile isNum = c::rest := List.takeWhile_eq_self_iff.mpr hdigits
  have hminus' : ¬(some c = some ('-' : UInt8)) := fun h => hminus (Option.some.inj h)
  have hplus' : ¬(some c = some ('+' : UInt8)) := fun h => hplus (Option.some.inj h)
  have hrange : -2^31 ≤ ((number (c::rest) : ℕ) : ℤ) ∧ ((number (c::rest) : ℕ) : ℤ) < 2^31 := by
    omega
  rw [stoi, List.dropWhile_cons_of_neg (by simp [hspace])]
  simp only [List.head?_cons, hminus', hplus', or_self, if_false, htake, List.cons_ne_nil,
    if_pos hrange]

end Numbers

section Create

variable {strict : Bool}

def shown (x : UrlText strict) (uf : UrlField) : Bytes :=
  (x.text.drop (x.offset uf % 2^16)).take (x.part uf).length

def uriOf (x : UrlText strict) (port : ℤ) : Uri where
  scheme := shown x .schema
  userinfo := shown x .userinfo
  host := shown x .host
  path := shown x .path
  query := shown x .query
  fragment := shown x .fragment
  port := port

theorem shown_part (x : UrlText strict) (uf : UrlField)
    (h : x.part uf = [] ∨ x.offset uf < 2^16) : shown x uf = x.part uf := by
  rw [shown]
  by_cases hne : x.part uf = []
  · rw [hne]
    rfl
  · rw [Nat.mod_eq_of_lt (h.resolve_left hne), part_text x uf hne]

theorem spans_text (x : UrlText strict) (port : ℕ) (uf : UrlField) :
    (({ spans x with port := port } : HttpParserUrl).text x.text uf).getD [] = shown x uf := by
  rw [HttpParserUrl.text, shown]
  change ((UrlText.spanOf (x.offset uf) (x.part uf)).map _).getD [] = _
  rw [UrlText.spanOf]
  split_ifs with hne
  · rw [hne]
    rfl
  · rfl

/-- `Create` on a text of the grammar. -/
theorem create_text (x : UrlText strict) (hlen : x.text.length ≤ 2^16+3)
    (hscheme : x.scheme.length+3 < 2^16) :
    create strict x.text = match x.authority.port with
      | none => .ok (some (uriOf x (defaultPort (shown x .schema))))
      | some _ => match portLoop (shown x .port) 0 with
        | none => .ok none
        | some _ => (stoi (shown x .port)).map fun port => some (uriOf x port) := by
  rw [create, parse_text x hlen hscheme]
  cases hport : x.authority.port with
  | none =>
    have hnone : (spans x).text x.text .port = none := by
      simp [HttpParserUrl.text, spans, UrlText.spanOf, UrlText.part, hport]
    simp only [hnone]
    have hfields := spans_text x 0
    change ∀ uf, ((spans x).text x.text uf).getD [] = shown x uf at hfields
    simp only [hfields]
    rfl
  | some d =>
    have hshown : (x.text.drop (x.offset .port % 2^16)).take d.length = shown x .port := by
      simp [shown, UrlText.part, hport]
    simp only [hshown]
    cases hloop : portLoop (shown x .port) 0 with
    | none => rfl
    | some v =>
      have hsome : ({ spans x with port := v } : HttpParserUrl).text x.text .port =
          some (shown x .port) := by
        simp [HttpParserUrl.text, spans, UrlText.spanOf, UrlText.part, hport, shown,
          (x.authority.port_ok d hport).1]
      simp only [Option.map_some, hsome, spans_text]
      cases stoi (shown x .port) with
      | error e => rfl
      | ok port => rfl

theorem offset_lt (x : UrlText strict) (uf : UrlField) (hne : x.part uf ≠ []) :
    x.offset uf < x.text.length := by
  by_contra hle
  apply hne
  rw [← part_text x uf hne, List.drop_eq_nil_of_le (Nat.le_of_not_lt hle), List.take_nil]

structure From (x : UrlText strict) (u : Uri) : Prop where
  scheme : u.scheme = x.scheme
  userinfo : u.userinfo = x.authority.userinfo.getD []
  host : u.host = x.authority.host
  path : u.path = x.tail.path
  query : u.query = x.tail.query.getD []
  fragment : u.fragment = (x.tail.fragment.map Prod.snd).getD []
  port : u.port = (x.authority.port.map fun d => (number d : ℤ)).getD (defaultPort x.scheme)
  range : 0 ≤ u.port ∧ u.port ≤ 0xffff

theorem defaultPort_range (scheme : Bytes) :
    0 ≤ defaultPort scheme ∧ defaultPort scheme ≤ 0xffff := by
  rw [defaultPort]
  split_ifs <;> decide

theorem create_shown (x : UrlText strict) (hlen : x.text.length ≤ 2^16+3)
    (hscheme : x.scheme.length+3 < 2^16)
    (hport : x.part .port = [] ∨ x.offset .port < 2^16) :
    create strict x.text = match x.authority.port with
      | none => .ok (some (uriOf x (defaultPort x.scheme)))
      | some d => if number d ≤ 0xffff then .ok (some (uriOf x (number d))) else .ok none := by
  have hschema : shown x .schema = x.scheme := shown_part x .schema (.inr (Nat.two_pow_pos 16))
  rw [create_text x hlen hscheme, shown_part x .port hport, hschema]
  cases hp : x.authority.port with
  | none => rfl
  | some d =>
    obtain ⟨hne, hdigits⟩ := x.authority.port_ok d hp
    have hpart : x.part .port = d := by simp [UrlText.part, hp]
    rw [hpart]
    simp only [portLoop_eq d 0 (by decide)]
    change (match (if number d ≤ 0xffff then some (number d) else none) with
      | none => Except.ok none
      | some _ => (stoi d).map fun port => some (uriOf x port)) = _
    split_ifs with hsmall
    · rw [stoi_digits hne hdigits (by omega)]
      rfl
    · rfl

theorem created (x : UrlText strict) (hlen : x.text.length < 2^16) {u : Uri}
    (h : create strict x.text = .ok (some u)) : From x u := by
  have hoff : ∀ uf, x.part uf = [] ∨ x.offset uf < 2^16 := by
    intro uf
    by_cases hne : x.part uf = []
    · exact .inl hne
    · exact .inr (Nat.lt_trans (offset_lt x uf hne) hlen)
  have hscheme : x.scheme.length+3 < 2^16 := by
    rw [text_length] at hlen
    omega
  have hshown : ∀ uf, shown x uf = x.part uf := fun uf => shown_part x uf (hoff uf)
  rw [create_shown x (by omega) hscheme (hoff .port)] at h
  cases hp : x.authority.port with
  | none =>
    simp only [hp] at h
    obtain rfl := Option.some.inj (Except.ok.inj h)
    refine ⟨hshown .schema, hshown .userinfo, hshown .host, hshown .path, hshown .query,
      hshown .fragment, ?_, defaultPort_range _⟩
    rw [hp]
    rfl
  | some d =>
    simp only [hp] at h
    split_ifs at h with hsmall
    · obtain rfl := Option.some.inj (Except.ok.inj h)
      refine ⟨hshown .schema, hshown .userinfo, hshown .host, hshown .path, hshown .query,
        hshown .fragment, ?_, ?_⟩
      · rw [hp]
        rfl
      · simp only [uriOf]
        omega
    · cases Except.ok.inj h

end Create

section Printed

variable {strict : Bool} {u : Uri}

structure Legible (strict : Bool) (u : Uri) : Prop where
  scheme : u.scheme ≠ [] ∧ ∀ c ∈ u.scheme, isAlpha c = true
  userinfo : ∀ c ∈ u.userinfo, isUserinfoChar c = true
  host : u.host ≠ [] ∧ ∀ c ∈ u.host, isHostChar strict c = true
  port : 0 ≤ u.port
  path : ∀ p ∈ u.path.head?, p = '/' ∧ ∀ c ∈ u.path.tail, isUrlChar strict c = true
  query : ∀ c ∈ u.query, isQueryChar strict c = true
  fragment : (∀ c ∈ u.fragment, isFragmentChar strict c = true) ∧
    ∀ c ∈ u.fragment.head?, c ≠ '#'

theorem toText_nonneg {v : ℤ} (hv : 0 ≤ v) : toText v = decimal v.toNat := by
  rw [toText, if_neg (not_lt.mpr hv), show v.natAbs = v.toNat by omega]

theorem getPath_ok (h : Legible strict u) :
    ∀ p ∈ u.getPath.head?, p = '/' ∧ ∀ c ∈ u.getPath.tail, isUrlChar strict c = true := by
  rw [Uri.getPath]
  split_ifs
  · intro p hp
    obtain rfl := Option.some.inj hp
    exact ⟨rfl, fun c hc => by cases hc⟩
  · exact h.path

theorem getPath_ne_nil (u : Uri) : u.getPath ≠ [] := by
  rw [Uri.getPath]
  split_ifs with hpath
  · decide
  · exact hpath

/-- What `toString` prints, as a text of the grammar. -/
def printed (u : Uri) (h : Legible strict u) : UrlText strict where
  scheme := u.scheme
  scheme_ok := h.scheme
  authority := {
    userinfo := if u.userinfo = [] then none else some u.userinfo
    bracketed := false
    host := u.host
    port := if u.isDefaultPort then none else some (toText u.port)
    userinfo_ok := by
      intro w hw
      split_ifs at hw
      · cases hw
      · obtain rfl := Option.some.inj hw
        exact h.userinfo
    bracketed_ok := Bool.noConfusion
    plain_ok := fun _ => h.host
    port_ok := by
      intro d hd
      split_ifs at hd
      · cases hd
      · obtain rfl := Option.some.inj hd
        rw [toText_nonneg h.port]
        exact ⟨decimal_ne_nil _, decimal_num _⟩ }
  tail := {
    path := u.getPath
    query := if u.query = [] then none else some u.query
    fragment := if u.fragment = [] then none else some (0, u.fragment)
    path_ok := getPath_ok h
    query_ok := by
      intro q hq
      split_ifs at hq
      · cases hq
      · obtain rfl := Option.some.inj hq
        exact h.query
    fragment_ok := by
      intro f hf
      split_ifs at hf
      · cases hf
      · obtain rfl := Option.some.inj hf
        exact h.fragment
    apart := fun _ => .inl (getPath_ne_nil u) }

theorem printed_text (h : Legible strict u) : (printed u h).text = u.toString := by
  simp only [printed, UrlText.text, Authority.text, Authority.userinfoText, Authority.openText,
    Authority.closeText, Authority.portText, Tail.text, Tail.queryText, Tail.fragmentText,
    Uri.toString]
  have hat : ascii "@" = [('@' : UInt8)] := rfl
  have hcolon : ascii ":" = [(':' : UInt8)] := rfl
  have hquestion : ascii "?" = [('?' : UInt8)] := rfl
  have hsign : ascii "#" = [('#' : UInt8)] := rfl
  rw [hat, hcolon, hquestion, hsign]
  by_cases h₁ : u.userinfo = [] <;> by_cases h₂ : u.isDefaultPort = true <;>
    by_cases h₃ : u.query = [] <;> by_cases h₄ : u.fragment = [] <;> simp [h₁, h₂, h₃, h₄]

theorem printed_part (h : Legible strict u) :
    (printed u h).part .schema = u.scheme ∧ (printed u h).part .userinfo = u.userinfo ∧
      (printed u h).part .host = u.host ∧ (printed u h).part .path = u.getPath ∧
      (printed u h).part .query = u.query ∧ (printed u h).part .fragment = u.fragment := by
  refine ⟨rfl, ?_, rfl, rfl, ?_, ?_⟩
  · simp only [printed, UrlText.part]
    split_ifs with hnil
    · exact hnil.symm
    · rfl
  · simp only [printed, UrlText.part]
    split_ifs with hnil
    · exact hnil.symm
    · rfl
  · simp only [printed, UrlText.part]
    split_ifs with hnil
    · exact hnil.symm
    · rfl

theorem printed_authority (h : Legible strict u) :
    u.scheme.length+3+(printed u h).authority.text.length = pathOffset u := by
  simp only [printed, Authority.text, Authority.userinfoText, Authority.openText,
    Authority.closeText, Authority.portText, pathOffset]
  by_cases h₁ : u.userinfo = [] <;> by_cases h₂ : u.isDefaultPort = true <;>
    simp [h₁, h₂] <;> omega

theorem printed_offset (h : Legible strict u) :
    (printed u h).offset .path = pathOffset u ∧
      (u.query ≠ [] → (printed u h).offset .query = queryOffset u) ∧
      (u.fragment ≠ [] → (printed u h).offset .fragment = fragmentOffset u) := by
  have hpath := printed_authority h
  refine ⟨hpath, fun _ => ?_, fun hne => ?_⟩
  · rw [queryOffset, ← hpath]
    rfl
  · have hquery : (printed u h).tail.queryText.length =
        if u.query = [] then 0 else 1+u.query.length := by
      simp only [printed, Tail.queryText]
      by_cases hq : u.query = []
      · simp [hq]
      · simp [hq, Nat.add_comm]
    have hsigns : ((printed u h).tail.fragment.map Prod.fst).getD 0 = 0 := by
      simp only [printed, if_neg hne]
      rfl
    rw [fragmentOffset, ← hpath, ← hquery, UrlText.offset, hsigns, List.length_append]
    change u.scheme.length+3+(printed u h).authority.text.length+
      (u.getPath.length+(printed u h).tail.queryText.length)+1+0 = _
    omega

theorem toString_length (u : Uri) :
    u.toString.length = pathOffset u+u.getPath.length+
      (if u.query = [] then 0 else 1+u.query.length)+
        (if u.fragment = [] then 0 else 1+u.fragment.length) := by
  have hsep : (ascii "://").length = 3 := rfl
  have hat : (ascii "@").length = 1 := rfl
  have hcolon : (ascii ":").length = 1 := rfl
  have hquestion : (ascii "?").length = 1 := rfl
  have hsign : (ascii "#").length = 1 := rfl
  simp only [Uri.toString, pathOffset, List.length_append, hsep]
  by_cases h₁ : u.userinfo = [] <;> by_cases h₂ : u.isDefaultPort = true <;>
    by_cases h₃ : u.query = [] <;> by_cases h₄ : u.fragment = [] <;>
    simp [h₁, h₂, h₃, h₄, hat, hcolon, hquestion, hsign] <;> omega

end Printed

section Growth

variable {strict : Bool} {x : UrlText strict} {u : Uri}

/-- A printed port is at most two characters longer than the port of the text. -/
theorem port_growth (h : From x u) :
    (if u.isDefaultPort then 0 else 1+(toText u.port).length) ≤ x.authority.portText.length+2 := by
  have hport := h.port
  split_ifs with hdefault
  · exact Nat.zero_le _
  · rw [Authority.portText]
    cases hp : x.authority.port with
    | none =>
      rw [hp, Option.map_none, Option.getD_none, ← h.scheme] at hport
      have hzero : u.port = 0 := by
        rw [Uri.isDefaultPort, hport, defaultPort] at hdefault
        rw [hport, defaultPort]
        split_ifs at hdefault ⊢
        · exact absurd (by decide) hdefault
        · exact absurd (by decide) hdefault
        · rfl
      rw [hzero]
      decide
    | some d =>
      obtain ⟨hne, hdigits⟩ := x.authority.port_ok d hp
      rw [hp, Option.map_some, Option.getD_some] at hport
      rw [toText_nonneg h.range.1, hport, Int.toNat_natCast]
      have hle := decimal_length hne hdigits
      rw [List.length_cons]
      omega

theorem growth (h : From x u) : u.toString.length ≤ x.text.length+3 := by
  have hport := port_growth h
  have huserinfo : (if u.userinfo = [] then 0 else u.userinfo.length+1) ≤
      x.authority.userinfoText.length := by
    rw [h.userinfo, Authority.userinfoText]
    cases x.authority.userinfo with
    | none => simp
    | some w => split_ifs <;> simp
  have hpath : u.getPath.length ≤ x.tail.path.length+1 := by
    rw [Uri.getPath, h.path]
    split_ifs
    · exact Nat.le_add_left 1 _
    · exact Nat.le_succ _
  have hquery : (if u.query = [] then 0 else 1+u.query.length) ≤ x.tail.queryText.length := by
    rw [h.query, Tail.queryText]
    cases x.tail.query with
    | none => simp
    | some q =>
      split_ifs
      · exact Nat.zero_le _
      · simp [Nat.add_comm]
  have hfragment : (if u.fragment = [] then 0 else 1+u.fragment.length) ≤
      x.tail.fragmentText.length := by
    rw [h.fragment, Tail.fragmentText]
    cases x.tail.fragment with
    | none => simp
    | some f =>
      split_ifs
      · exact Nat.zero_le _
      · simp
        omega
  rw [toString_length, text_length, pathOffset, h.scheme, h.host]
  simp only [Authority.text, Tail.text, List.length_append]
  omega

end Growth

section Host

variable {strict : Bool} {x : UrlText strict} {u v : Uri}

theorem userinfo_of (h : From x u) : ∀ c ∈ u.userinfo, isUserinfoChar c = true := by
  rw [h.userinfo]
  cases hui : x.authority.userinfo with
  | none => simp
  | some w => exact x.authority.userinfo_ok w hui

theorem legible (h : From x u) (hhost : ∀ c ∈ u.host, c ≠ ':' ∧ c ≠ '%') : Legible strict u where
  scheme := by
    rw [h.scheme]
    exact x.scheme_ok
  userinfo := userinfo_of h
  host := by
    rw [h.host] at hhost ⊢
    refine ⟨host_ne_nil x.authority, ?_⟩
    cases hb : x.authority.bracketed with
    | false => exact (x.authority.plain_ok hb).2
    | true =>
      obtain ⟨w, zone, hw, -, hchars, hzone⟩ := x.authority.bracketed_ok hb
      rw [hw] at hhost ⊢
      rcases hzone with rfl | ⟨id, rfl, -⟩
      · rw [List.append_nil] at hhost ⊢
        intro c hc
        exact v6Char_host strict c (hchars c hc) (hhost c hc).1
      · have hpercent := hhost ('%' : UInt8) (by simp)
        exact absurd rfl hpercent.2
  port := h.range.1
  path := by
    rw [h.path]
    exact x.tail.path_ok
  query := by
    rw [h.query]
    cases hq : x.tail.query with
    | none => simp
    | some q => exact x.tail.query_ok q hq
  fragment := by
    rw [h.fragment]
    cases hf : x.tail.fragment with
    | none => simp
    | some f => exact x.tail.fragment_ok f hf

/-- The authority as `toString` prints it. -/
def authorityOf (u : Uri) : Bytes :=
  (if u.userinfo = [] then [] else u.userinfo ++ ascii "@") ++
    (u.host ++ if u.isDefaultPort then [] else ascii ":" ++ toText u.port)

def tailOf (u : Uri) : Bytes :=
  u.getPath ++ (if u.query = [] then [] else ascii "?") ++ u.query ++
    (if u.fragment = [] then [] else ascii "#") ++ u.fragment

theorem toString_eq (u : Uri) :
    u.toString = u.scheme ++ (ascii "://" ++ (authorityOf u ++ tailOf u)) := by
  rw [Uri.toString, authorityOf, tailOf]
  by_cases hui : u.userinfo = []
  · simp [hui]
  · simp [hui]

theorem server_chars (h : From x u) :
    ∀ c ∈ u.host ++ (if u.isDefaultPort then [] else ascii ":" ++ toText u.port),
      isUserinfoChar c = true := by
  intro c hc
  rcases List.mem_append.mp hc with hc | hc
  · rw [h.host] at hc
    exact host_chars x.authority c hc
  · split_ifs at hc
    · cases hc
    · rcases List.mem_append.mp hc with hc | hc
      · obtain rfl := List.mem_singleton.mp hc
        decide
      · rw [toText_nonneg h.range.1] at hc
        exact num_userinfo c (decimal_num _ c hc)

theorem authorityOf_chars (h : From x u) :
    ∀ c ∈ authorityOf u, isUserinfoChar c = true ∨ c = '@' := by
  intro c hc
  rcases List.mem_append.mp hc with hc | hc
  · split_ifs at hc
    · cases hc
    · rcases List.mem_append.mp hc with hc | hc
      · exact .inl (userinfo_of h c hc)
      · exact .inr (List.mem_singleton.mp hc)
  · exact .inl (server_chars h c hc)

theorem tailOf_head (h : From x u) : ∀ c ∈ (tailOf u).head?, leaves c = true := by
  have hpath : ∀ c ∈ u.getPath.head?, leaves c = true := by
    intro c hc
    rw [Uri.getPath] at hc
    split_ifs at hc
    · obtain rfl := Option.some.inj hc
      decide
    · rw [h.path] at hc
      rw [(x.tail.path_ok c hc).1]
      decide
  obtain ⟨c, rest, hcons⟩ := List.exists_cons_of_ne_nil (getPath_ne_nil u)
  intro d hd
  apply hpath
  rw [tailOf, hcons] at hd
  rw [hcons]
  exact hd

theorem authority_unique (h : From x u) (y : UrlText strict) (hscheme : y.scheme = u.scheme)
    (hy : u.toString = y.text) : y.authority.text = authorityOf u := by
  rw [toString_eq, UrlText.text, hscheme] at hy
  have hbehind := List.append_cancel_left (List.append_cancel_left hy)
  have hu : ∀ c ∈ authorityOf u, leaves c = false := by
    intro c hc
    rcases authorityOf_chars h c hc with hc | rfl
    · have hserver := server_char c (by rw [isServerChar, hc, Bool.true_or, Bool.true_or])
      simp [leaves, hserver.2]
    · decide
  have hyw : ∀ c ∈ y.authority.text, leaves c = false := by
    intro c hc
    simp [leaves, authority_chars y.authority c hc]
  rw [← takeWhile_leaves hyw (tail_head y.tail), ← hbehind, takeWhile_leaves hu (tailOf_head h)]

/-- The printed host has no bracket, so it is read as a plain one. -/
theorem plain_authority (h : From x u) (y : UrlText strict)
    (hy : y.authority.text = authorityOf u) : y.authority.bracketed = false := by
  cases hb : y.authority.bracketed with
  | false => rfl
  | true =>
    have hmem : ('[' : UInt8) ∈ y.authority.text := by
      simp [Authority.text, Authority.openText, hb]
    rw [hy] at hmem
    rcases authorityOf_chars h _ hmem with hc | hc
    · exact absurd rfl (userinfo_bracket _ hc)
    · exact absurd hc (by decide)

theorem userinfo_length (h : From x u) (y : UrlText strict)
    (hy : y.authority.text = authorityOf u) :
    y.authority.userinfoText.length = if u.userinfo = [] then 0 else u.userinfo.length+1 := by
  have hserver : ('@' : UInt8) ∉ u.host ++ (if u.isDefaultPort then [] else
      ascii ":" ++ toText u.port) := by
    intro hat
    have hc := server_chars h _ hat
    revert hc
    decide
  have hsign : ascii "@" = [('@' : UInt8)] := rfl
  rw [authorityOf, hsign] at hy
  have hat := at_mem_iff y.authority
  rw [hy] at hat
  split_ifs with hui
  · rw [if_pos hui, List.nil_append] at hat
    have hnone : y.authority.userinfo = none := by
      simpa using mt hat.mpr hserver
    rw [Authority.userinfoText, hnone]
    rfl
  · rw [if_neg hui] at hat hy
    have hsome : y.authority.userinfo.isSome = true := hat.mp (by simp)
    obtain ⟨w, hw⟩ := Option.isSome_iff_exists.mp hsome
    have hno : ∀ {z : Bytes}, (∀ c ∈ z, isUserinfoChar c = true) → ('@' : UInt8) ∉ z := by
      intro z hz hat
      have hc := hz _ hat
      revert hc
      decide
    have hcut : w ++ ('@' : UInt8)::(y.authority.openText ++ y.authority.host ++
        y.authority.closeText ++ y.authority.portText) = u.userinfo ++ ('@' : UInt8)::(u.host ++
          if u.isDefaultPort then [] else ascii ":" ++ toText u.port) := by
      rw [authority_eq, Authority.userinfoText, hw] at hy
      simpa using hy
    have hsame := congrArg (fun l => l.takeWhile (· ≠ ('@' : UInt8))) hcut
    simp only [Separated.takeWhile_append (hno (y.authority.userinfo_ok w hw)),
      Separated.takeWhile_append (hno (userinfo_of h))] at hsame
    rw [Authority.userinfoText, hw, ← hsame]
    simp

end Host

section RoundTrip

variable {strict : Bool} {x : UrlText strict} {u v : Uri}

theorem create_some {s : Bytes} (h : create strict s = .ok (some u)) :
    ∃ parser, parseUrl strict s false = some parser ∧
      u.scheme = (parser.text s .schema).getD [] := by
  rw [create] at h
  cases hparse : parseUrl strict s false with
  | none =>
    rw [hparse] at h
    cases Except.ok.inj h
  | some parser =>
    refine ⟨parser, rfl, ?_⟩
    simp only [hparse] at h
    cases hport : parser.text s .port with
    | none =>
      rw [hport] at h
      obtain rfl := Option.some.inj (Except.ok.inj h)
      rfl
    | some digits =>
      simp only [hport] at h
      cases hstoi : stoi digits with
      | error e =>
        rw [hstoi] at h
        cases h
      | ok port =>
        rw [hstoi] at h
        obtain rfl := Option.some.inj (Except.ok.inj h)
        rfl

/-- Whatever port it has, an accepted text of the grammar shows its other fields. -/
theorem create_fields (y : UrlText strict) (hlen : y.text.length ≤ 2^16+3)
    (hscheme : y.scheme.length+3 < 2^16) (h : create strict y.text = .ok (some v)) :
    ∃ port, v = uriOf y port := by
  rw [create_text y hlen hscheme] at h
  cases hport : y.authority.port with
  | none =>
    rw [hport] at h
    exact ⟨_, (Option.some.inj (Except.ok.inj h)).symm⟩
  | some d =>
    simp only [hport] at h
    cases hloop : portLoop (shown y .port) 0 with
    | none =>
      rw [hloop] at h
      cases Except.ok.inj h
    | some n =>
      simp only [hloop] at h
      cases hstoi : stoi (shown y .port) with
      | error e =>
        rw [hstoi] at h
        cases h
      | ok port =>
        rw [hstoi] at h
        exact ⟨port, (Option.some.inj (Except.ok.inj h)).symm⟩

theorem scheme_short (h : From x u) (hlen : x.text.length < 2^16) :
    u.scheme.length+3+(if u.userinfo = [] then 0 else u.userinfo.length+1) < 2^16 := by
  have hhost := List.length_pos_iff.mpr (host_ne_nil x.authority)
  have huserinfo : (if u.userinfo = [] then 0 else u.userinfo.length+1) ≤
      x.authority.userinfoText.length := by
    rw [h.userinfo, Authority.userinfoText]
    cases x.authority.userinfo with
    | none => simp
    | some w => split_ifs <;> simp
  rw [text_length] at hlen
  simp only [Authority.text, List.length_append] at hlen
  rw [h.scheme]
  omega

/-- If the printed text is read back with the same host, the host needs no brackets. -/
theorem host_needed (h : From x u) (hlen : x.text.length < 2^16)
    (hv : create strict u.toString = .ok (some v)) (hhost : v.host = u.host) :
    ∀ c ∈ u.host, c ≠ ':' ∧ c ≠ '%' := by
  have hgrowth := growth h
  have hshort := scheme_short h hlen
  obtain ⟨parser, hparse, -⟩ := create_some hv
  have hlength := congrArg List.length (toString_eq u)
  have hsep : (ascii "://").length = 3 := rfl
  have hscheme := List.length_pos_iff.mpr x.scheme_ok.1
  rw [← h.scheme] at hscheme
  rw [List.length_append, List.length_append, hsep] at hlength
  rw [toString_eq] at hparse
  obtain ⟨y, hy, htext⟩ := accepted_behind (by rw [h.scheme]; exact x.scheme_ok) (by omega)
    (by omega) hparse
  rw [← toString_eq] at htext
  have hauthority := authority_unique h y hy htext
  have hplain := plain_authority h y hauthority
  rw [htext] at hv hgrowth
  obtain ⟨port, rfl⟩ := create_fields y (by omega) (by rw [hy]; omega) hv
  have hoff : y.offset .host < 2^16 := by
    have hopen : y.authority.openText = [] := by simp [Authority.openText, hplain]
    rw [UrlText.offset, hopen, List.append_nil, userinfo_length h y hauthority, hy]
    exact hshort
  have hshown : y.authority.host = u.host := (shown_part y .host (.inr hoff)).symm.trans hhost
  rw [← hshown]
  intro c hc
  exact hostChar_plain strict c ((y.authority.plain_ok hplain).2 c hc)

/-- A window that wraps lies in the scheme and the colon behind it. -/
theorem wrapped (hscheme : u.scheme ≠ []) {k n : ℕ} (h : k+n ≤ 2) :
    (u.toString.drop k).take n = ((u.scheme ++ ascii ":").drop k).take n := by
  have hlength := List.length_pos_iff.mpr hscheme
  have hcolon : (ascii ":").length = 1 := rfl
  have hsplit : u.toString =
      (u.scheme ++ ascii ":") ++ (ascii "//" ++ (authorityOf u ++ tailOf u)) := by
    rw [toString_eq, List.append_assoc]
    rfl
  rw [hsplit, List.drop_append_of_le_length, List.take_append_of_le_length]
  · rw [List.length_drop, List.length_append, hcolon]
    omega
  · rw [List.length_append, hcolon]
    omega

/-- What the parser shows of a field that is printed from an offset on. -/
theorem shown_seen (hl : Legible strict u) (hlen : u.toString.length ≤ 2^16+2) {uf : UrlField}
    {off : ℕ} {w : Bytes} (hpart : (printed u hl).part uf = w)
    (hoff : w ≠ [] → (printed u hl).offset uf = off) :
    shown (printed u hl) uf = w ↔ Seen u off w := by
  by_cases hnil : w = []
  · rw [shown_part _ _ (.inl (hpart.trans hnil)), hpart]
    exact ⟨fun _ => .inl hnil, fun _ => rfl⟩
  · have hoff := hoff hnil
    by_cases hsmall : off < 2^16
    · rw [shown_part _ _ (.inr (hoff ▸ hsmall)), hpart]
      exact ⟨fun _ => .inr (.inl hsmall), fun _ => rfl⟩
    · have hbound : off+w.length ≤ u.toString.length := by
        have htext := congrArg List.length (part_text (printed u hl) uf (hpart ▸ hnil))
        have hpos := List.length_pos_iff.mpr hnil
        rw [hpart, hoff, printed_text, List.length_take, List.length_drop] at htext
        omega
      have hmod : off % 2^16 = off-2^16 := by omega
      rw [shown, hpart, hoff, hmod, printed_text, wrapped hl.scheme.1 (by omega), Seen]
      simp only [hnil, hsmall, false_or]

theorem printed_create (h : From x u) (hl : Legible strict u) (hlen : x.text.length < 2^16)
    (hpath : pathOffset u < 2^16) :
    create strict u.toString = .ok (some (uriOf (printed u hl) u.port)) := by
  have hgrowth := growth h
  have hshort := scheme_short h hlen
  have hport : (printed u hl).part .port = [] ∨ (printed u hl).offset .port < 2^16 := by
    by_cases hne : (printed u hl).part .port = []
    · exact .inl hne
    · right
      rw [← printed_authority hl, Authority.text, List.length_append] at hpath
      cases hp : (printed u hl).authority.port with
      | none => simp [UrlText.part, hp] at hne
      | some d =>
        rw [Authority.portText, hp, List.length_cons] at hpath
        change u.scheme.length+3+((printed u hl).authority.userinfoText ++
          ((printed u hl).authority.openText ++ (printed u hl).authority.host ++
            (printed u hl).authority.closeText)).length+1 < 2^16
        omega
  have hcreate := create_shown (printed u hl) (by rw [printed_text]; omega)
    (show u.scheme.length+3 < 2^16 by omega) hport
  rw [printed_text] at hcreate
  rw [hcreate]
  by_cases hdefault : u.isDefaultPort = true
  · have hnone : (printed u hl).authority.port = none := by simp [printed, hdefault]
    have hvalue : defaultPort u.scheme = u.port := by
      rw [Uri.isDefaultPort] at hdefault
      rw [defaultPort]
      split_ifs at hdefault ⊢
      · exact (of_decide_eq_true hdefault).symm
      · exact (of_decide_eq_true hdefault).symm
    rw [hnone]
    change Except.ok (some (uriOf (printed u hl) (defaultPort u.scheme))) = _
    rw [hvalue]
  · have hsome : (printed u hl).authority.port = some (toText u.port) := by
      simp [printed, hdefault]
    have hnumber : (number (toText u.port) : ℤ) = u.port := by
      rw [toText_nonneg h.range.1, number_decimal, Int.toNat_of_nonneg h.range.1]
    have hrange := h.range.2
    rw [← hnumber] at hrange
    simp only [hsome, hnumber]
    rw [if_pos (by exact_mod_cast hrange)]

/-- A path that is printed beyond the offsets is not read back. -/
theorem path_needed (hl : Legible strict u) (hlen : u.toString.length ≤ 2^16+2) (port : ℤ)
    (h : (uriOf (printed u hl) port).getPath = u.getPath) : pathOffset u < 2^16 := by
  by_contra hlarge
  have hoff := (printed_offset hl).1
  have hpos := List.length_pos_iff.mpr (getPath_ne_nil u)
  have hbound : pathOffset u+u.getPath.length ≤ u.toString.length := by
    rw [toString_length]
    omega
  have hmod : pathOffset u % 2^16 = pathOffset u-2^16 := by omega
  have hshown : shown (printed u hl) .path =
      ((u.scheme ++ ascii ":").drop (pathOffset u-2^16)).take u.getPath.length := by
    rw [shown, hoff, hmod, printed_text, (printed_part hl).2.2.2.1]
    exact wrapped hl.scheme.1 (by omega)
  have hslash : ('/' : UInt8) ∉ u.scheme ++ ascii ":" := by
    intro hmem
    rcases List.mem_append.mp hmem with hmem | hmem
    · have halpha := hl.scheme.2 _ hmem
      revert halpha
      decide
    · revert hmem
      decide
  have hscheme := List.length_pos_iff.mpr hl.scheme.1
  have hcolon : (ascii ":").length = 1 := rfl
  have hne : shown (printed u hl) .path ≠ [] := by
    apply List.ne_nil_of_length_pos
    rw [hshown, List.length_take, List.length_drop, List.length_append, hcolon]
    omega
  have hpath : u.getPath = shown (printed u hl) .path := by
    rw [← h, Uri.getPath]
    exact if_neg hne
  have hmem : ('/' : UInt8) ∈ u.getPath := by
    obtain ⟨c, rest, hcons⟩ := List.exists_cons_of_ne_nil (getPath_ne_nil u)
    rw [hcons, (getPath_ok hl c (by rw [hcons]; rfl)).1]
    exact List.mem_cons_self
  rw [hpath, hshown] at hmem
  exact hslash (List.mem_of_mem_drop (List.mem_of_mem_take hmem))

theorem scheme_needed (hscheme : u.scheme = []) : create strict u.toString = .ok none := by
  have hcons : u.toString = (':' : UInt8)::(ascii "//" ++ (authorityOf u ++ tailOf u)) := by
    rw [toString_eq, hscheme]
    rfl
  have hdead : parseUrlChar strict .reqSpacesBeforeUrl (':' : UInt8) = .dead := by
    cases strict <;> decide
  have hnone : parseUrl strict u.toString false = none := by
    rw [hcons, parseUrl, if_neg (List.cons_ne_nil _ _)]
    simp only [Bool.false_eq_true, if_false, urlLoop, hdead, if_true]
  rw [create, hnone]

theorem printable_of_agrees (h : From x u) (hlen : x.text.length < 2^16)
    (hv : create strict u.toString = .ok (some v)) (hagrees : Agrees u v) : Printable u := by
  have hgrowth := growth h
  have hshort := scheme_short h hlen
  have hhost := host_needed h hlen hv hagrees.host
  have hl := legible h hhost
  obtain ⟨-, -, -, -, hquery, hfragment⟩ := printed_part hl
  obtain ⟨-, hqoff, hfoff⟩ := printed_offset hl
  rw [← printed_text hl] at hv
  obtain ⟨port, rfl⟩ := create_fields (printed u hl) (by rw [printed_text]; omega)
    (show u.scheme.length+3 < 2^16 by omega) hv
  exact ⟨hl.scheme.1, hhost, path_needed hl (by omega) port hagrees.path,
    (shown_seen hl (by omega) hquery hqoff).mp hagrees.query,
    (shown_seen hl (by omega) hfragment hfoff).mp hagrees.fragment⟩

theorem shown_userinfo (hl : Legible strict u) (hshort : u.scheme.length+3 < 2^16) :
    shown (printed u hl) .userinfo = u.userinfo := by
  obtain ⟨-, huserinfo, -⟩ := printed_part hl
  have hoff : (printed u hl).offset .userinfo < 2^16 := hshort
  exact (shown_part _ .userinfo (.inr hoff)).trans huserinfo

theorem shown_host (hl : Legible strict u)
    (hshort : u.scheme.length+3+(if u.userinfo = [] then 0 else u.userinfo.length+1) < 2^16) :
    shown (printed u hl) .host = u.host := by
  obtain ⟨-, -, hhost, -⟩ := printed_part hl
  refine (shown_part _ .host (.inr ?_)).trans hhost
  refine Nat.lt_of_le_of_lt (Nat.le_of_eq ?_) hshort
  change u.scheme.length+3+((printed u hl).authority.userinfoText ++ []).length = _
  simp only [printed, Authority.userinfoText]
  by_cases hui : u.userinfo = [] <;> simp [hui]

theorem agrees_of_printable (h : From x u) (hlen : x.text.length < 2^16) (hp : Printable u) :
    ∃ v, create strict u.toString = .ok (some v) ∧ Agrees u v := by
  have hgrowth := growth h
  have hshort := scheme_short h hlen
  have hl := legible h hp.host
  obtain ⟨hscheme, -, -, hpath, hquery, hfragment⟩ := printed_part hl
  obtain ⟨hpoff, hqoff, hfoff⟩ := printed_offset hl
  have hschema : shown (printed u hl) .schema = u.scheme :=
    (shown_part _ .schema (.inr (Nat.two_pow_pos 16))).trans hscheme
  have hpath' : shown (printed u hl) .path = u.getPath :=
    (shown_part _ .path (.inr (hpoff ▸ hp.path))).trans hpath
  refine ⟨_, printed_create h hl hlen hp.path, ?_⟩
  exact {
    scheme := hschema
    userinfo := shown_userinfo hl (by omega)
    host := shown_host hl hshort
    port := by simp only [Uri.getPort, uriOf, hschema]
    path := by
      change (if shown (printed u hl) .path = [] then ascii "/" else _) = _
      rw [hpath', if_neg (getPath_ne_nil u)]
      exact hpath'
    query := (shown_seen hl (by omega) hquery hqoff).mpr hp.query
    fragment := (shown_seen hl (by omega) hfragment hfoff).mpr hp.fragment }

/-- The text of a uri that was parsed is parsed as the same uri exactly if the uri is
printable. -/
theorem round_trip_iff (strict : Bool) (s : Bytes) (hlen : s.length < 65536) (u : Uri)
    (h : create strict s = .ok (some u)) :
    (∃ v, create strict u.toString = .ok (some v) ∧ Agrees u v) ↔ Printable u := by
  obtain ⟨parser, hparse, hschema⟩ := create_some h
  rcases accepted hlen hparse with hnone | ⟨x, rfl⟩
  · have hempty : u.scheme = [] := by
      rw [hschema, HttpParserUrl.text, hnone]
      rfl
    constructor
    · rintro ⟨v, hv, -⟩
      rw [scheme_needed hempty] at hv
      cases Except.ok.inj hv
    · intro hp
      exact absurd hempty hp.scheme
  · have hfrom := created x hlen h
    constructor
    · rintro ⟨v, hv, hagrees⟩
      exact printable_of_agrees hfrom hlen hv hagrees
    · intro hp
      exact agrees_of_printable hfrom hlen hp

theorem round_trip_example :
    (∃ v, create true (Uri.toString ⟨ascii "ws", [], ascii "h", ascii "/p", [], [], 80⟩) =
      .ok (some v) ∧ Agrees ⟨ascii "ws", [], ascii "h", ascii "/p", [], [], 80⟩ v) ↔
        Printable ⟨ascii "ws", [], ascii "h", ascii "/p", [], [], 80⟩ :=
  round_trip_iff true (ascii "ws://h/p") (by decide) _ rfl

/-- The brackets of a host are not printed, and the text is not accepted without them. -/
theorem brackets_lost :
    create true (ascii "ws://[::1]/") =
      .ok (some ⟨ascii "ws", [], ascii "::1", ascii "/", [], [], 80⟩) ∧
    ¬∃ v, create true (Uri.toString ⟨ascii "ws", [], ascii "::1", ascii "/", [], [], 80⟩) =
      .ok (some v) ∧ Agrees ⟨ascii "ws", [], ascii "::1", ascii "/", [], [], 80⟩ v := by
  refine ⟨rfl, ?_⟩
  rintro ⟨v, hv, -⟩
  have hnone : create true (Uri.toString ⟨ascii "ws", [], ascii "::1", ascii "/", [], [], 80⟩) =
      .ok none := rfl
  rw [hnone] at hv
  cases Except.ok.inj hv

end RoundTrip

end Lamb.UriRoundTrip
