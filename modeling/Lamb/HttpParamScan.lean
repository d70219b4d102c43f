import Lamb.UrlCodec
import Lamb.Library.Separated
import Mathlib.Data.List.Infix

/-!
# Scanning parameters

The scanner works with offsets into the text. Over a text of segments it gives one pair
for every segment with `=`, and takes the segments without it that it passed into the
next key. A list of pairs joined in the usual form is read back as it is, and pairs that
were encoded come back as they were exactly if no key has a `=`, which the encoder does
not escape.
-/

set_option autoImplicit false

namespace Lamb.HttpParamScan
open Lamb.ByteString Lamb.Http Lamb.HttpParams

/-- `std::string::npos`. -/
def npos : ℕ := 2^64-1

/-- `str.find(c, pos)`. -/
def find (str : Bytes) (c : UInt8) (pos : ℕ) : ℕ :=
  match (str.drop pos).idxOf? c with
  | some i => pos+i
  | none => npos

/-- `str.substr(pos, n)`, which throws for an offset beyond the end. -/
def substr (str : Bytes) (pos n : ℕ) : Option Bytes :=
  if pos ≤ str.length then some ((str.drop pos).take n) else none

/-- The difference of two `size_t`. -/
def sizeSub (a b : ℕ) : ℕ := (a+2^64-b) % 2^64

/-- `PARSE_PARAM` from an offset on. Nothing is returned if it throws, or takes more
rounds than it is given. -/
def parseFrom (flag : UInt8) (trim : Bytes → Bytes) (str : Bytes) :
    ℕ → ℕ → Option (List (Bytes × Bytes))
  | 0, _ => none
  | rounds+1, last =>
    let key := find str 61 last
    if key = npos then some []
    else do
      let pos := find str flag key
      let k ← substr str last (sizeSub key last)
      let v ← substr str (key+1) (sizeSub (sizeSub pos key) 1)
      let rest ← if pos = npos then some [] else parseFrom flag trim str rounds ((pos+1) % 2^64)
      return (urlDecode (trim k), urlDecode v)::rest

def segmentPairs (flag : UInt8) : Bytes → List Bytes → List (Bytes × Bytes)
  | _, [] => []
  | carry, seg::segs =>
    match seg.dropWhile (· ≠ 61) with
    | [] => segmentPairs flag (carry ++ (seg ++ [flag])) segs
    | _::value => (carry ++ seg.takeWhile (· ≠ 61), value)::segmentPairs flag [] segs

def decoded (trim : Bytes → Bytes) (e : Bytes × Bytes) : Bytes × Bytes :=
  (urlDecode (trim e.1), urlDecode e.2)

section Rounds

/-! A round takes one pair, up to the separator or to the end of the text. -/

variable (flag : UInt8) (trim : Bytes → Bytes) (rounds : ℕ) {k v text : Bytes}

theorem parse_absent (h : 61 ∉ text) : parse flag trim (rounds+1) text = [] := by
  rw [parse, Separated.dropWhile_absent h]

theorem parse_last (hk : 61 ∉ k) (hv : flag ∉ v) :
    parse flag trim (rounds+1) (k ++ 61::v) = [decoded trim (k, v)] := by
  rw [parse, Separated.dropWhile_append hk, Separated.takeWhile_append hk]
  simp only [Separated.takeWhile_absent hv, Separated.dropWhile_absent hv]
  rfl

theorem parse_more (hk : 61 ∉ k) (hv : flag ∉ v) (rest : Bytes) :
    parse flag trim (rounds+1) (k ++ 61::(v ++ flag::rest)) =
      decoded trim (k, v)::parse flag trim rounds rest := by
  rw [parse, Separated.dropWhile_append hk, Separated.takeWhile_append hk]
  simp only [Separated.takeWhile_append hv, Separated.dropWhile_append hv]
  rfl

end Rounds

section Offsets

variable {str before after : Bytes} {c : UInt8} {pos : ℕ}

theorem find_first (hdrop : str.drop pos = before ++ c::after) (hno : c ∉ before) :
    find str c pos = pos+before.length := by
  rw [find, hdrop, Separated.idxOf_append hno]

theorem find_none (hdrop : c ∉ str.drop pos) : find str c pos = npos := by
  rw [find, Separated.idxOf_absent hdrop]

theorem drop_behind (hdrop : str.drop pos = before ++ c::after) :
    str.drop (pos+before.length) = c::after ∧ str.drop (pos+before.length+1) = after := by
  have hfirst : str.drop (pos+before.length) = c::after := by
    rw [← List.drop_drop, hdrop, List.drop_left]
  refine ⟨hfirst, ?_⟩
  rw [← List.drop_drop, hfirst]
  rfl

theorem length_behind (hdrop : str.drop pos = before ++ c::after) :
    str.length = pos+before.length+1+after.length := by
  have hlen := congrArg List.length hdrop
  rw [List.length_drop, List.length_append, List.length_cons] at hlen
  omega

theorem substr_drop (n : ℕ) (hpos : pos ≤ str.length) :
    substr str pos n = some ((str.drop pos).take n) := if_pos hpos

theorem sizeSub_le (a b : ℕ) (hb : b ≤ a) (ha : a < 2^64) : sizeSub a b = a-b := by
  rw [sizeSub]
  omega

theorem sizeSub_between (pos key n : ℕ) (hpos : pos = key+1+n) (hlt : pos < 2^64) :
    sizeSub (sizeSub pos key) 1 = n := by
  have hinner : sizeSub pos key = n+1 := by
    rw [sizeSub_le pos key (by omega) hlt]
    omega
  rw [hinner, sizeSub_le (n+1) 1 (by omega) (by omega), Nat.add_sub_cancel]

/-- The offsets delimit what `takeWhile` and `dropWhile` give, and the rounds suffice. -/
theorem parseFrom_parse (flag : UInt8) (trim : Bytes → Bytes) (hflag : flag ≠ 61) (str : Bytes)
    (hsize : str.length < npos) (rounds pos : ℕ) (hpos : pos ≤ str.length)
    (hrounds : str.length < rounds+pos) :
    parseFrom flag trim str rounds pos = some (parse flag trim rounds (str.drop pos)) := by
  induction rounds generalizing pos with
  | zero => omega
  | succ rounds ih =>
    by_cases heq : 61 ∈ str.drop pos
    · obtain ⟨k, tail, hdrop, hk⟩ := List.eq_append_cons_of_mem heq
      obtain ⟨hkey, htail⟩ := drop_behind hdrop
      have hlen := length_behind hdrop
      have hfind := find_first hdrop hk
      have hsome : pos+k.length ≠ npos := by omega
      have hsub : sizeSub (pos+k.length) pos = k.length := by
        rw [sizeSub_le _ _ (by omega) (by rw [npos] at hsize; omega)]
        omega
      have hkeytext : substr str pos (sizeSub (pos+k.length) pos) = some k := by
        rw [substr_drop _ hpos, hsub, hdrop, List.take_left]
      rw [parseFrom, hdrop]
      simp only [hfind, if_neg hsome, hkeytext, Option.bind_eq_bind, Option.bind_some]
      by_cases hsep : flag ∈ tail
      · obtain ⟨v, rest, rfl, hv⟩ := List.eq_append_cons_of_mem hsep
        have hcons : str.drop (pos+k.length) = (61::v) ++ flag::rest := hkey
        have hno : flag ∉ 61::v := List.not_mem_cons_of_ne_of_not_mem hflag hv
        have hlen' := length_behind hcons
        obtain ⟨-, hrest⟩ := drop_behind hcons
        have hfound := find_first hcons hno
        rw [List.length_cons] at hlen' hrest hfound
        have hmore : pos+k.length+(v.length+1) ≠ npos := by omega
        have hcount :
            sizeSub (sizeSub (pos+k.length+(v.length+1)) (pos+k.length)) 1 = v.length := by
          rw [npos] at hsize
          exact sizeSub_between _ _ _ (by omega) (by omega)
        have hnext : (pos+k.length+(v.length+1)+1) % 2^64 = pos+k.length+(v.length+1)+1 := by
          rw [npos] at hsize
          exact Nat.mod_eq_of_lt (by omega)
        have hvalue : substr str (pos+k.length+1) v.length = some v := by
          rw [substr_drop _ (by omega), htail, List.take_left]
        rw [parse_more flag trim rounds hk hv rest]
        simp only [hfound, hcount, hvalue, if_neg hmore, hnext, Option.bind_some,
          ih _ (show pos+k.length+(v.length+1)+1 ≤ str.length by omega) (by omega), hrest]
        rfl
      · have hno : flag ∉ str.drop (pos+k.length) := by
          rw [hkey]
          exact List.not_mem_cons_of_ne_of_not_mem hflag hsep
        have hcount : tail.length ≤ sizeSub (sizeSub npos (pos+k.length)) 1 := by
          rw [npos] at hsize ⊢
          rw [sizeSub_between (2^64-1) (pos+k.length) (2^64-1-(pos+k.length)-1) (by omega)
            (by omega)]
          omega
        have hvalue : substr str (pos+k.length+1) (sizeSub (sizeSub npos (pos+k.length)) 1) =
            some tail := by
          rw [substr_drop _ (by omega), htail, List.take_of_length_le hcount]
        rw [parse_last flag trim rounds hk hsep]
        simp only [find_none hno, hvalue, if_true, Option.bind_some]
        rfl
    · rw [parseFrom, parse_absent flag trim rounds heq]
      simp only [find_none heq, if_true]

end Offsets

section Segments

def joined (flag : UInt8) (segs : List Bytes) : Bytes := [flag].intercalate segs

theorem joined_cons (flag : UInt8) (seg : Bytes) (segs : List Bytes) (hne : segs ≠ []) :
    joined flag (seg::segs) = seg ++ flag::joined flag segs := by
  rw [joined, List.intercalate_cons_of_ne_nil hne, joined, List.append_assoc]
  rfl

theorem segmentPairs_valueless (flag : UInt8) (carry seg : Bytes) (segs : List Bytes)
    (h : 61 ∉ seg) :
    segmentPairs flag carry (seg::segs) = segmentPairs flag (carry ++ (seg ++ [flag])) segs := by
  rw [segmentPairs, Separated.dropWhile_absent h]

theorem segmentPairs_pair (flag : UInt8) (carry k v : Bytes) (segs : List Bytes) (h : 61 ∉ k) :
    segmentPairs flag carry ((k ++ 61::v)::segs) =
      (carry ++ k, v)::segmentPairs flag [] segs := by
  rw [segmentPairs, Separated.dropWhile_append h, Separated.takeWhile_append h]

/-- The scanner over a text of segments, from behind the text `carry`. -/
theorem parse_segments (flag : UInt8) (trim : Bytes → Bytes) (hflag : flag ≠ 61)
    (segs : List Bytes) (hsegs : ∀ seg ∈ segs, flag ∉ seg) (carry : Bytes) (hcarry : 61 ∉ carry)
    (rounds : ℕ) (hr : (carry ++ joined flag segs).length < rounds) :
    parse flag trim rounds (carry ++ joined flag segs) =
      (segmentPairs flag carry segs).map (decoded trim) := by
  induction segs generalizing carry rounds with
  | nil =>
    cases rounds with
    | zero => omega
    | succ rounds =>
      rw [joined, List.intercalate_nil, List.append_nil, parse_absent flag trim rounds hcarry]
      rfl
  | cons seg segs ih =>
    obtain ⟨hseg, hrest⟩ := List.forall_mem_cons.mp hsegs
    by_cases heq : 61 ∈ seg
    · obtain ⟨k, v, rfl, hk⟩ := List.eq_append_cons_of_mem heq
      have hkey : 61 ∉ carry ++ k := by simp [hcarry, hk]
      have hv : flag ∉ v := fun h => hseg (by simp [h])
      rw [segmentPairs_pair flag carry k v segs hk, List.map_cons]
      cases rounds with
      | zero => omega
      | succ rounds =>
        by_cases hnil : segs = []
        · subst hnil
          have htext : carry ++ joined flag [k ++ 61::v] = (carry ++ k) ++ 61::v := by
            simp [joined]
          rw [htext, parse_last flag trim rounds hkey hv]
          rfl
        · have htext : carry ++ joined flag ((k ++ 61::v)::segs) =
              (carry ++ k) ++ 61::(v ++ flag::joined flag segs) := by
            rw [joined_cons flag _ segs hnil]
            simp
          have hshort : ([] ++ joined flag segs).length < rounds := by
            rw [htext] at hr
            simp only [List.length_append, List.length_cons] at hr
            rw [List.nil_append]
            omega
          have hnext := ih hrest [] List.not_mem_nil rounds hshort
          rw [List.nil_append] at hnext
          rw [htext, parse_more flag trim rounds hkey hv, hnext]
    · rw [segmentPairs_valueless flag carry seg segs heq]
      by_cases hnil : segs = []
      · subst hnil
        have htext : 61 ∉ carry ++ joined flag [seg] := by simp [joined, hcarry, heq]
        cases rounds with
        | zero => omega
        | succ rounds =>
          rw [parse_absent flag trim rounds htext]
          rfl
      · have htext : carry ++ joined flag (seg::segs) =
            (carry ++ (seg ++ [flag])) ++ joined flag segs := by
          rw [joined_cons flag seg segs hnil]
          simp
        rw [htext] at hr ⊢
        exact ih hrest _ (by simp [hcarry, heq, hflag.symm]) rounds hr

theorem parseParam_joined (flag : UInt8) (trim : Bytes → Bytes) (hflag : flag ≠ 61)
    (segs : List Bytes) (hsegs : ∀ seg ∈ segs, flag ∉ seg) :
    parseParam flag trim (joined flag segs) =
      (segmentPairs flag [] segs).map (decoded trim) :=
  parse_segments flag trim hflag segs hsegs [] List.not_mem_nil _ (Nat.lt_succ_self _)

end Segments

section Pairs

structure RawPair (e : Bytes × Bytes) : Prop where
  key : 61 ∉ e.1 ∧ 38 ∉ e.1
  value : 38 ∉ e.2

instance rawPairDecidable (e : Bytes × Bytes) : Decidable (RawPair e) :=
  decidable_of_iff ((61 ∉ e.1 ∧ 38 ∉ e.1) ∧ 38 ∉ e.2)
    ⟨fun h => ⟨h.1, h.2⟩, fun h => ⟨h.key, h.value⟩⟩

def segment (e : Bytes × Bytes) : Bytes := e.1 ++ 61::e.2

def joinPairs (es : List (Bytes × Bytes)) : Bytes := joined 38 (es.map segment)

theorem segment_whole (e : Bytes × Bytes) (he : RawPair e) : 38 ∉ segment e := by
  simp [segment, he.key.2, he.value]

theorem segmentPairs_raw (es : List (Bytes × Bytes)) (hes : ∀ e ∈ es, 61 ∉ e.1) :
    segmentPairs 38 [] (es.map segment) = es := by
  induction es with
  | nil => rfl
  | cons e es ih =>
    obtain ⟨he, hrest⟩ := List.forall_mem_cons.mp hes
    rw [List.map_cons, segment, segmentPairs_pair 38 [] e.1 e.2 _ he, ih hrest, List.nil_append]

theorem parseParam_pairs (es : List (Bytes × Bytes)) (hes : ∀ e ∈ es, RawPair e) :
    parseParam 38 id (joinPairs es) = es.map (decoded id) := by
  have hwhole : ∀ seg ∈ es.map segment, 38 ∉ seg := by
    intro seg hseg
    obtain ⟨e, he, rfl⟩ := List.mem_map.mp hseg
    exact segment_whole e (hes e he)
  rw [joinPairs, parseParam_joined 38 id (by decide) _ hwhole,
    segmentPairs_raw es fun e he => (hes e he).key.1]

end Pairs

section Lookups

/-- `getParamAs` with the conversion `boost::lexical_cast`, which may throw. -/
def getParamAs {β : Type} (lexicalCast : Bytes → Option β) (s : Store) (key : Bytes)
    (default : β) : β × Store :=
  let s := initBodyParam (initQueryParam s)
  (((s.params.find key).bind lexicalCast).getD default, s)

def formType : Bytes := ascii "application/x-www-form-urlencoded"

/-- A content type that contains the one of forms in any letter case, as a C string. -/
def FormContent (contentType : Bytes) : Prop :=
  ∃ before found after, contentType = before ++ (found ++ after) ∧ 0 ∉ before ∧
    found.map toLower = formType

theorem strcasestr_iff (haystack needle : Bytes) (hnul : 0 ∉ needle) :
    strcasestr haystack needle = true ↔
      ∃ before found after, haystack = before ++ (found ++ after) ∧ 0 ∉ before ∧
        found.map toLower = needle := by
  rw [strcasestr, List.any_eq_true]
  constructor
  · rintro ⟨t, ht, hneedle⟩
    obtain ⟨a, ha⟩ := (List.mem_tails ..).mp ht
    obtain ⟨b, hb⟩ := List.isPrefixOf_iff_prefix.mp hneedle
    rw [← hb, folded] at ha
    obtain ⟨before, tail, hcut, -, htail⟩ := List.map_eq_append_iff.mp ha.symm
    obtain ⟨found, after, rfl, hfound, -⟩ := List.map_eq_append_iff.mp htail
    refine ⟨before, found, after ++ haystack.dropWhile (· ≠ 0), ?_, ?_, hfound⟩
    · rw [← List.append_assoc found, ← List.append_assoc, ← hcut, List.takeWhile_append_dropWhile]
    · intro hz
      have hmem : (0 : UInt8) ∈ haystack.takeWhile (· ≠ 0) := by
        rw [hcut]
        exact List.mem_append_left _ hz
      simpa using List.mem_takeWhile_imp hmem
  · rintro ⟨before, found, after, rfl, hbefore, rfl⟩
    have hfound : ∀ c ∈ before ++ found, decide (c ≠ 0) = true := by
      intro c hc
      rw [decide_eq_true_eq]
      rintro rfl
      rcases List.mem_append.mp hc with h | h
      · exact hbefore h
      · exact hnul (List.mem_map.mpr ⟨0, h, rfl⟩)
    refine ⟨found.map toLower ++ (after.takeWhile (· ≠ 0)).map toLower, ?_, ?_⟩
    · rw [List.mem_tails, folded, ← List.append_assoc, List.takeWhile_append_of_pos hfound,
        List.map_append, List.map_append, List.append_assoc]
      exact List.suffix_append _ _
    · exact List.isPrefixOf_iff_prefix.mpr (List.prefix_append _ _)

/-- The first lookup over a form: the query and the body are scanned to their ends, and
the parameters are the decoded pairs of the query and then of the body, if the content
type is that of a form; a key that is there keeps its value. -/
theorem first_lookup_params {β : Type} (lexicalCast : Bytes → Option β) (s : Store)
    (Q B : List (Bytes × Bytes)) (key default : Bytes) (other : β)
    (hQ : ∀ e ∈ Q, RawPair e) (hB : ∀ e ∈ B, RawPair e)
    (hempty : s.params = []) (hquery : s.queryParsed = false) (hbody : s.bodyParsed = false)
    (hq : s.request.query = joinPairs Q) (hb : s.request.body = joinPairs B) :
    (s.request.query.length < npos →
        parseFrom 38 id s.request.query (s.request.query.length+1) 0 = some (Q.map (decoded id))) ∧
      (s.request.body.length < npos →
        parseFrom 38 id s.request.body (s.request.body.length+1) 0 = some (B.map (decoded id))) ∧
      ∀ after ∈ [(getParam s key default).2, (hasParam s key).2,
          (getParamAs lexicalCast s key other).2],
        (FormContent (s.request.getHeader (ascii "content-type")) →
          after.params = insertAll ((Q ++ B).map (decoded id)) []) ∧
        (¬ FormContent (s.request.getHeader (ascii "content-type")) →
          after.params = insertAll (Q.map (decoded id)) []) := by
  have hscan : ∀ es : List (Bytes × Bytes), (∀ e ∈ es, RawPair e) →
      (joinPairs es).length < npos →
      parseFrom 38 id (joinPairs es) ((joinPairs es).length+1) 0 = some (es.map (decoded id)) := by
    intro es hes hsize
    rw [parseFrom_parse 38 id (by decide) _ hsize _ 0 (Nat.zero_le _) (Nat.lt_succ_self _),
      List.drop_zero, ← parseParam, parseParam_pairs es hes]
  have hform := strcasestr_iff (s.request.getHeader (ascii "content-type")) formType (by decide)
  have hparams : (parsedStore s).params =
      insertAll (bodyEntries s.request) (insertAll (Q.map (decoded id)) []) := by
    rw [parsedStore_first s hquery hbody, queryEntries, hq, parseParam_pairs Q hQ, hempty]
  have hmaps : (FormContent (s.request.getHeader (ascii "content-type")) →
        (parsedStore s).params = insertAll ((Q ++ B).map (decoded id)) []) ∧
      (¬ FormContent (s.request.getHeader (ascii "content-type")) →
        (parsedStore s).params = insertAll (Q.map (decoded id)) []) := by
    rw [hparams, bodyEntries, hb, parseParam_pairs B hB, ← formType]
    constructor
    · intro hc
      rw [if_pos (hform.mpr hc), insertAll, insertAll, insertAll, List.map_append,
        List.foldl_append]
    · intro hc
      rw [if_neg (fun h => hc (hform.mp h))]
      rfl
  refine ⟨by rw [hq]; exact hscan Q hQ, by rw [hb]; exact hscan B hB, ?_⟩
  intro after hafter
  have hstore : after = parsedStore s := by
    simpa only [List.mem_cons, List.not_mem_nil, or_false, getParam, hasParam, getParamAs,
      parsedStore, or_self] using hafter
  rw [hstore]
  exact hmaps

def formStore : Store := .new { HttpRequest.new with
  query := ascii "a=1&=&a=x=y"
  body := ascii "A=2&b="
  headers := [(ascii "Content-Type", ascii "APPLICATION/X-WWW-Form-Urlencoded; charset=utf-8")] }

theorem first_lookup_form :
    (parseFrom 38 id formStore.request.query 12 0 =
        some [(ascii "a", ascii "1"), ([], []), (ascii "a", ascii "x=y")]) ∧
      (getParam formStore (ascii "b") (ascii "none")).2.params =
        [([], []), (ascii "a", ascii "1"), (ascii "b", [])] := by
  have hlookup := first_lookup_params (β := Bytes) some formStore
    [(ascii "a", ascii "1"), ([], []), (ascii "a", ascii "x=y")]
    [(ascii "A", ascii "2"), (ascii "b", [])] (ascii "b") (ascii "none") [] (by decide) (by decide)
    rfl rfl rfl (by decide) (by decide)
  obtain ⟨hquery, -, hmaps⟩ := hlookup
  have hform : FormContent (formStore.request.getHeader (ascii "content-type")) :=
    ⟨[], ascii "APPLICATION/X-WWW-Form-Urlencoded", ascii "; charset=utf-8", by decide, by decide,
      by decide⟩
  constructor
  · exact (hquery (by decide)).trans (by decide)
  · exact ((hmaps _ List.mem_cons_self).1 hform).trans (by decide)

end Lookups

section Encoded

def encodePair (e : Bytes × Bytes) : Bytes × Bytes :=
  (UrlCodec.urlEncode true e.1, UrlCodec.urlEncode true e.2)

/-- A `=` stays in its place. -/
theorem urlEncode_cut (f : Bool) (a b : Bytes) :
    UrlCodec.urlEncode f (a ++ 61::b) = UrlCodec.urlEncode f a ++ 61::UrlCodec.urlEncode f b := by
  rw [UrlCodec.urlEncode_encode, UrlCodec.urlEncode_encode, UrlCodec.urlEncode_encode]
  exact List.flatMap_append

theorem urlDecode_encoded (s : Bytes) : HttpParams.urlDecode (UrlCodec.urlEncode true s) = s := by
  rw [UrlCodec.params_urlDecode, UrlCodec.urlDecode_decode, UrlCodec.urlEncode_encode]
  exact PercentCoding.decode_encode _ true true id (by decide) (fun _ => by decide) s

/-- The bytes for one byte: no `&`, and a `=` only for itself. -/
theorem mem_encodeByte (f : Bool) (b c : UInt8)
    (hc : c ∈ PercentCoding.encodeByte UrlCodec.charIsUnreserved f b) :
    c ≠ 38 ∧ (c = 61 → b = 61) := by
  have hdigit : ∀ v < 16, PercentCoding.hexDigit v ≠ 38 ∧ PercentCoding.hexDigit v ≠ 61 := by
    decide
  have hb := b.toNat_lt
  rw [PercentCoding.encodeByte] at hc
  split_ifs at hc with hsafe hspace
  · obtain rfl := List.mem_singleton.mp hc
    refine ⟨?_, id⟩
    rintro rfl
    exact absurd hsafe (by decide)
  · obtain rfl := List.mem_singleton.mp hc
    exact ⟨by decide, fun h => absurd h (by decide)⟩
  · simp only [List.mem_cons, List.not_mem_nil, or_false] at hc
    rcases hc with rfl | rfl | rfl
    · exact ⟨by decide, fun h => absurd h (by decide)⟩
    · obtain ⟨hand, heq⟩ := hdigit (b.toNat/16) (by omega)
      exact ⟨hand, fun h => absurd h heq⟩
    · obtain ⟨hand, heq⟩ := hdigit (b.toNat % 16) (by omega)
      exact ⟨hand, fun h => absurd h heq⟩

theorem urlEncode_and (f : Bool) (s : Bytes) : 38 ∉ UrlCodec.urlEncode f s := by
  rw [UrlCodec.urlEncode_encode]
  intro h
  obtain ⟨b, -, hb⟩ := List.mem_flatMap.mp h
  exact (mem_encodeByte f b 38 hb).1 rfl

theorem urlEncode_equals (f : Bool) (s : Bytes) (hs : 61 ∉ s) :
    61 ∉ UrlCodec.urlEncode f s := by
  rw [UrlCodec.urlEncode_encode]
  intro h
  obtain ⟨b, hmem, hb⟩ := List.mem_flatMap.mp h
  obtain rfl := (mem_encodeByte f b 61 hb).2 rfl
  exact hs hmem

theorem encodePair_raw (e : Bytes × Bytes) (he : 61 ∉ e.1) : RawPair (encodePair e) :=
  ⟨⟨urlEncode_equals true e.1 he, urlEncode_and true e.1⟩, urlEncode_and true e.2⟩

theorem decoded_encodePair (e : Bytes × Bytes) : decoded id (encodePair e) = e := by
  rw [decoded, encodePair, id, urlDecode_encoded, urlDecode_encoded]

/-- A key is cut at its first `=`. -/
theorem segmentPairs_encoded (e : Bytes × Bytes) (segs : List Bytes) :
    ∃ key value, 61 ∉ key ∧ segmentPairs 38 [] (segment (encodePair e)::segs) =
      (UrlCodec.urlEncode true key, value)::segmentPairs 38 [] segs := by
  by_cases he : 61 ∈ e.1
  · obtain ⟨a, b, hkey, ha⟩ := List.eq_append_cons_of_mem he
    have hseg : segment (encodePair e) = UrlCodec.urlEncode true a ++
        61::(UrlCodec.urlEncode true b ++ 61::UrlCodec.urlEncode true e.2) := by
      rw [segment, encodePair, hkey, urlEncode_cut, List.append_assoc]
      rfl
    refine ⟨a, UrlCodec.urlEncode true b ++ 61::UrlCodec.urlEncode true e.2, ha, ?_⟩
    rw [hseg]
    exact segmentPairs_pair 38 [] _ _ segs (urlEncode_equals true a ha)
  · exact ⟨e.1, _, he, segmentPairs_pair 38 [] _ _ segs (urlEncode_equals true e.1 he)⟩

theorem keys_without_equals (es : List (Bytes × Bytes)) :
    ∀ p ∈ parseParam 38 id (joinPairs (es.map encodePair)), 61 ∉ p.1 := by
  have hwhole : ∀ seg ∈ (es.map encodePair).map segment, 38 ∉ seg := by
    intro seg hseg
    obtain ⟨p, hp, rfl⟩ := List.mem_map.mp hseg
    obtain ⟨e, -, rfl⟩ := List.mem_map.mp hp
    simp [segment, encodePair, urlEncode_and]
  rw [joinPairs, parseParam_joined 38 id (by decide) _ hwhole]
  induction es with
  | nil => simp [segmentPairs]
  | cons e es ih =>
    obtain ⟨key, value, hkey, hpairs⟩ :=
      segmentPairs_encoded e ((es.map encodePair).map segment)
    have hrest := ih fun seg hseg => hwhole seg (List.mem_cons_of_mem _ hseg)
    rw [List.map_cons, List.map_cons, hpairs, List.map_cons, List.forall_mem_cons]
    refine ⟨?_, hrest⟩
    rw [decoded, id, urlDecode_encoded]
    exact hkey

theorem toLower_equals (c : UInt8) : toLower c = 61 ↔ c = 61 := by
  unfold toLower
  split_ifs with h
  · simp only [UInt8.le_iff_toNat_le, UInt8.reduceToNat] at h
    simp only [← UInt8.toNat_inj, UInt8.toNat_add, UInt8.reduceToNat]
    omega
  · exact Iff.rfl

theorem equals_mem_folded (s : Bytes) (hnul : 0 ∉ s) : 61 ∈ folded s ↔ 61 ∈ s := by
  rw [folded, Separated.takeWhile_absent hnul, List.mem_map]
  constructor
  · rintro ⟨c, hc, hlower⟩
    rwa [(toLower_equals c).mp hlower] at hc
  · intro h
    exact ⟨61, h, rfl⟩

theorem not_mem_folded (s : Bytes) (hs : 61 ∉ s) : 61 ∉ folded s := by
  rw [folded]
  intro h
  obtain ⟨c, hc, hlower⟩ := List.mem_map.mp h
  rw [(toLower_equals c).mp hlower] at hc
  exact hs ((List.takeWhile_sublist _).subset hc)

theorem firstValue_none (k : Bytes) (es : List (Bytes × Bytes))
    (h : ∀ e ∈ es, folded e.1 ≠ folded k) : firstValue k es = none := by
  rw [firstValue, List.find?_eq_none.mpr, Option.map_none]
  intro e he
  simpa using h e he

theorem firstValue_mem (es : List (Bytes × Bytes))
    (hd : es.Pairwise fun e e' => folded e.1 ≠ folded e'.1) (e : Bytes × Bytes) (he : e ∈ es) :
    firstValue e.1 es = some e.2 := by
  induction es with
  | nil => exact absurd he List.not_mem_nil
  | cons e' es ih =>
    obtain ⟨hhead, hrest⟩ := List.pairwise_cons.mp hd
    rw [firstValue_cons]
    rcases List.mem_cons.mp he with rfl | hmem
    · rw [if_pos rfl]
    · rw [if_neg (hhead e hmem), ih hrest hmem]

theorem first_lookup_found (s : Store) (k default : Bytes) (hempty : s.params = [])
    (hquery : s.queryParsed = false) (hbody : s.bodyParsed = false)
    (hform : bodyEntries s.request = []) :
    (hasParam s k).1 = firstValue k (queryEntries s.request) ∧
      (getParam s k default).1 = (firstValue k (queryEntries s.request)).getD default := by
  have hfind : MapType.find k (parsedStore s).params = firstValue k (queryEntries s.request) := by
    rw [parsedStore_first s hquery hbody, hform, hempty]
    exact find_insertAll k _ []
  exact ⟨hfind, congrArg (Option.getD · default) hfind⟩

/-- All pairs are found under their keys, and nothing under other keys. -/
structure Recovered (s : Store) (es : List (Bytes × Bytes)) : Prop where
  found : ∀ e ∈ es, ∀ default, (getParam s e.1 default).1 = e.2
  other : ∀ k, (∀ e ∈ es, folded e.1 ≠ folded k) → (hasParam s k).1 = none

/-- Pairs that were encoded into a query are recovered exactly if no key has a `=`. -/
theorem encoded_recovered_iff (s : Store) (es : List (Bytes × Bytes))
    (hnul : ∀ e ∈ es, 0 ∉ e.1 ∧ 0 ∉ e.2)
    (hd : es.Pairwise fun e e' => folded e.1 ≠ folded e'.1)
    (hempty : s.params = []) (hquery : s.queryParsed = false) (hbody : s.bodyParsed = false)
    (hform : bodyEntries s.request = [])
    (hq : s.request.query = joinPairs (es.map encodePair)) :
    Recovered s es ↔ ∀ e ∈ es, 61 ∉ e.1 := by
  have hlookup := fun k default => first_lookup_found s k default hempty hquery hbody hform
  constructor
  · intro hr e he hequals
    have hkey : 61 ∈ folded e.1 := (equals_mem_folded e.1 (hnul e he).1).mpr hequals
    have hnone : firstValue e.1 (queryEntries s.request) = none := by
      apply firstValue_none
      intro p hp heq
      rw [queryEntries, hq] at hp
      rw [← heq] at hkey
      exact not_mem_folded p.1 (keys_without_equals es p hp) hkey
    have hvalue := hr.found e he (0::e.2)
    rw [(hlookup e.1 (0::e.2)).2, hnone, Option.getD_none] at hvalue
    exact List.cons_ne_self 0 e.2 hvalue
  · intro hno
    have hraw : ∀ p ∈ es.map encodePair, RawPair p := by
      intro p hp
      obtain ⟨e, he, rfl⟩ := List.mem_map.mp hp
      exact encodePair_raw e (hno e he)
    have hentries : queryEntries s.request = es := by
      rw [queryEntries, hq, parseParam_pairs _ hraw, List.map_map]
      exact (List.map_congr_left fun e _ => decoded_encodePair e).trans (List.map_id es)
    constructor
    · intro e he default
      rw [(hlookup e.1 default).2, hentries, firstValue_mem es hd e he, Option.getD_some]
    · intro k hk
      rw [(hlookup k []).1, hentries, firstValue_none k es hk]

def queryStore (query : Bytes) : Store := .new { HttpRequest.new with query := query }

theorem encoded_recovered_words : Recovered
    (queryStore (joinPairs [encodePair (ascii "a b", ascii "1&2"), encodePair (ascii "c", [])]))
    [(ascii "a b", ascii "1&2"), (ascii "c", [])] :=
  (encoded_recovered_iff _ _ (by decide) (by decide) rfl rfl rfl (by decide) rfl).mpr (by decide)

/-- The key `a=b` comes back as `a`. -/
theorem encoded_key_cut :
    (getParam (queryStore (joinPairs [encodePair (ascii "a=b", ascii "c")])) (ascii "a=b")
        (ascii "none")).1 = ascii "none" ∧
      (hasParam (queryStore (joinPairs [encodePair (ascii "a=b", ascii "c")])) (ascii "a")).1 =
        some (ascii "b=c") ∧
      ¬ Recovered (queryStore (joinPairs [encodePair (ascii "a=b", ascii "c")]))
        [(ascii "a=b", ascii "c")] := by
  have hlost : (getParam (queryStore (joinPairs [encodePair (ascii "a=b", ascii "c")]))
      (ascii "a=b") (ascii "none")).1 = ascii "none" := by decide
  refine ⟨hlost, by decide, ?_⟩
  intro hr
  have hfound := hr.found _ List.mem_cons_self (ascii "none")
  rw [hlost] at hfound
  exact absurd hfound (by decide)

end Encoded

end Lamb.HttpParamScan
