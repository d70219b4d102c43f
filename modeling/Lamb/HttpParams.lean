import Lamb.Http

/-!
# Parameters and cookies of a request

Parameters are parsed from the query and from a form body at the first lookup,
cookies from their header at every lookup. Parsing never replaces a value that is
there. A deletion before the first lookup is undone by the parsing, and a deleted
cookie comes back at the next lookup; all other histories of sets and deletes give
the value of the last one, or the first value of the request.
-/

set_option autoImplicit false

namespace Lamb.HttpParams
open Lamb.ByteString Lamb.Http

/-- `m.insert(std::make_pair(key, val))`. -/
def insert (key val : Bytes) (m : MapType) : MapType :=
  OrderedMap.insert bytesLess folded key val m

/-- `m.erase(key)`. -/
def erase (key : Bytes) (m : MapType) : MapType := OrderedMap.erase bytesLess folded key m

/-- `isxdigit` in the C locale. -/
def isxdigit (c : UInt8) : Bool :=
  (48 ≤ c ∧ c ≤ 57) ∨ (65 ≤ c ∧ c ≤ 70) ∨ (97 ≤ c ∧ c ≤ 102)

/-- `xdigit_chars`. -/
def xdigit (c : UInt8) : UInt8 :=
  if 48 ≤ c ∧ c ≤ 57 then c-48
  else if 65 ≤ c ∧ c ≤ 70 then c-55
  else if 97 ≤ c ∧ c ≤ 102 then c-87
  else 0

/-- `StringUtil::UrlDecode` with `space_as_plus`. -/
def urlDecode : Bytes → Bytes
  | [] => []
  | 37::a::b::rest =>
    if isxdigit a && isxdigit b then (xdigit a <<< 4 ||| xdigit b)::urlDecode rest
    else 37::urlDecode (a::b::rest)
  | c::rest => (if c = 43 then 32 else c)::urlDecode rest

/-- `StringUtil::Trim` with its default delimiters. -/
def trim (s : Bytes) : Bytes :=
  let delimit := fun c : UInt8 => c = 32 ∨ c = 9 ∨ c = 13 ∨ c = 10
  ((s.dropWhile delimit).reverse.dropWhile delimit).reverse

/-- The pairs of `PARSE_PARAM` from a position on: a key up to `=`, whatever it
contains, and a value up to the separator. Every round takes an `=`, so the length
of the text bounds their number. -/
def parse (flag : UInt8) (trim : Bytes → Bytes) : ℕ → Bytes → List (Bytes × Bytes)
  | 0, _ => []
  | fuel+1, str =>
    match str.dropWhile (· ≠ 61) with
    | [] => []
    | _::tail =>
      let key := str.takeWhile (· ≠ 61)
      let value := tail.takeWhile (· ≠ flag)
      (urlDecode (trim key), urlDecode value)::
        match tail.dropWhile (· ≠ flag) with
        | [] => []
        | _::rest => parse flag trim fuel rest

def parseParam (flag : UInt8) (trim : Bytes → Bytes) (str : Bytes) : List (Bytes × Bytes) :=
  parse flag trim (str.length+1) str

/-- `strcasestr(haystack, needle) != nullptr` for a needle in lower case. -/
def strcasestr (haystack needle : Bytes) : Bool :=
  (folded haystack).tails.any needle.isPrefixOf

def queryEntries (q : HttpRequest) : List (Bytes × Bytes) := parseParam 38 id q.query

def bodyEntries (q : HttpRequest) : List (Bytes × Bytes) :=
  if strcasestr (q.getHeader (ascii "content-type")) (ascii "application/x-www-form-urlencoded")
  then parseParam 38 id q.body else []

def cookieEntries (q : HttpRequest) : List (Bytes × Bytes) :=
  parseParam 59 trim (q.getHeader (ascii "cookie"))

/-- A request with its lazily filled maps. The flags are the bits of
`m_parserParamFlag`. -/
structure Store where
  request : HttpRequest
  params : MapType
  cookies : MapType
  queryParsed : Bool
  bodyParsed : Bool
  cookiesParsed : Bool

def Store.new (q : HttpRequest) : Store := ⟨q, [], [], false, false, false⟩

def insertAll (es : List (Bytes × Bytes)) (m : MapType) : MapType :=
  es.foldl (fun m e => insert e.1 e.2 m) m

def initQueryParam (s : Store) : Store :=
  if s.queryParsed then s
  else { s with params := insertAll (queryEntries s.request) s.params, queryParsed := true }

def initBodyParam (s : Store) : Store :=
  if s.bodyParsed then s
  else { s with params := insertAll (bodyEntries s.request) s.params, bodyParsed := true }

def initCookies (s : Store) : Store :=
  if s.cookiesParsed then s
  else if (s.request.getHeader (ascii "cookie")).isEmpty then { s with cookiesParsed := true }
  else { s with cookies := insertAll (cookieEntries s.request) s.cookies }

/-- `hasParam`: whether the key is there, and its value. -/
def hasParam (s : Store) (key : Bytes) : Option Bytes × Store :=
  let s := initBodyParam (initQueryParam s)
  (s.params.find key, s)

def getParam (s : Store) (key default : Bytes) : Bytes × Store :=
  let s := initBodyParam (initQueryParam s)
  ((s.params.find key).getD default, s)

def hasCookie (s : Store) (key : Bytes) : Option Bytes × Store :=
  let s := initCookies s
  (s.cookies.find key, s)

def getCookie (s : Store) (key default : Bytes) : Bytes × Store :=
  let s := initCookies s
  ((s.cookies.find key).getD default, s)

def setParam (s : Store) (key val : Bytes) : Store := { s with params := s.params.assign key val }

def delParam (s : Store) (key : Bytes) : Store := { s with params := erase key s.params }

def setCookie (s : Store) (key val : Bytes) : Store :=
  { s with cookies := s.cookies.assign key val }

def delCookie (s : Store) (key : Bytes) : Store := { s with cookies := erase key s.cookies }

inductive Call where
  | setParam (key val : Bytes)
  | delParam (key : Bytes)
  | getParam (key default : Bytes)
  | hasParam (key : Bytes)
  | setCookie (key val : Bytes)
  | delCookie (key : Bytes)
  | getCookie (key default : Bytes)
  | hasCookie (key : Bytes)
  deriving DecidableEq

def Call.run : Call → Store → Store
  | .setParam key val, s => HttpParams.setParam s key val
  | .delParam key, s => HttpParams.delParam s key
  | .getParam key default, s => (HttpParams.getParam s key default).2
  | .hasParam key, s => (HttpParams.hasParam s key).2
  | .setCookie key val, s => HttpParams.setCookie s key val
  | .delCookie key, s => HttpParams.delCookie s key
  | .getCookie key default, s => (HttpParams.getCookie s key default).2
  | .hasCookie key, s => (HttpParams.hasCookie s key).2

abbrev History := List Call

def after (q : HttpRequest) : History → Store
  | [] => .new q
  | c::older => c.run (after q older)

attribute [local simp] after

/-! ## What a lookup should give -/

def Call.paramChange (k : Bytes) : Call → Option (Option Bytes)
  | .setParam key val => if folded key = folded k then some (some val) else none
  | .delParam key => if folded key = folded k then some none else none
  | _ => none

def Call.cookieChange (k : Bytes) : Call → Option (Option Bytes)
  | .setCookie key val => if folded key = folded k then some (some val) else none
  | .delCookie key => if folded key = folded k then some none else none
  | _ => none

def Call.looksUpParam : Call → Bool
  | .getParam _ _ => true
  | .hasParam _ => true
  | _ => false

def last (change : Call → Option (Option Bytes)) (h : History) : Option (Option Bytes) :=
  h.findSome? change

def firstValue (k : Bytes) (es : List (Bytes × Bytes)) : Option Bytes :=
  (es.find? fun e => folded e.1 = folded k).map Prod.snd

def parsedParam (q : HttpRequest) (k : Bytes) : Option Bytes :=
  firstValue k (queryEntries q ++ bodyEntries q)

def parsedCookie (q : HttpRequest) (k : Bytes) : Option Bytes := firstValue k (cookieEntries q)

/-- Both lookups of a parameter: the last set or delete decides, else the request. -/
def ParamAnswers (q : HttpRequest) (h : History) (k : Bytes) : Prop :=
  let expected := (last (Call.paramChange k) h).getD (parsedParam q k)
  (hasParam (after q h) k).1 = expected ∧
    ∀ default, (getParam (after q h) k default).1 = expected.getD default

def CookieAnswers (q : HttpRequest) (h : History) (k : Bytes) : Prop :=
  let expected := (last (Call.cookieChange k) h).getD (parsedCookie q k)
  (hasCookie (after q h) k).1 = expected ∧
    ∀ default, (getCookie (after q h) k default).1 = expected.getD default

/-- The last modification of the key is a delete from before the first lookup. -/
def earlyDelete (k : Bytes) : History → Bool
  | [] => false
  | c::older =>
    match c.paramChange k with
    | some (some _) => false
    | some none => !older.any Call.looksUpParam
    | none => earlyDelete k older

attribute [local simp] earlyDelete

section Maps

theorem sorted_insertAll (es : List (Bytes × Bytes)) (m : MapType)
    (hm : OrderedMap.Sorted bytesLess folded m) :
    OrderedMap.Sorted bytesLess folded (insertAll es m) := by
  induction es generalizing m with
  | nil => exact hm
  | cons e es ih => exact ih _ (OrderedMap.sorted_insert bytesLess_order e.1 e.2 m hm)

theorem firstValue_cons (k : Bytes) (e : Bytes × Bytes) (es : List (Bytes × Bytes)) :
    firstValue k (e::es) = if folded e.1 = folded k then some e.2 else firstValue k es := by
  rw [firstValue, List.find?_cons]
  split_ifs with h <;> simp [h, firstValue]

theorem find_insertAll (k : Bytes) (es : List (Bytes × Bytes)) (m : MapType) :
    MapType.find k (insertAll es m) = (MapType.find k m).or (firstValue k es) := by
  induction es generalizing m with
  | nil => exact (Option.or_none).symm
  | cons e es ih =>
    rw [insertAll, List.foldl_cons, ← insertAll, ih, firstValue_cons, find_eq, find_eq, insert]
    split_ifs with h
    · rw [OrderedMap.find_insert_same bytesLess_order e.1 k e.2 m h.symm]
      cases OrderedMap.find bytesLess folded k m <;> rfl
    · rw [OrderedMap.find_insert_other bytesLess_order e.1 k e.2 m (Ne.symm h)]

theorem firstValue_append (k : Bytes) (es fs : List (Bytes × Bytes)) :
    firstValue k (es ++ fs) = (firstValue k es).or (firstValue k fs) := by
  induction es with
  | nil => rfl
  | cons e es ih =>
    rw [List.cons_append, firstValue_cons, firstValue_cons, ih]
    split_ifs <;> rfl

end Maps

section Params

def storedParam (q : HttpRequest) (h : History) (k : Bytes) : Option Bytes :=
  match last (Call.paramChange k) h with
  | some (some v) => some v
  | some none => if h.any Call.looksUpParam && earlyDelete k h then parsedParam q k else none
  | none => if h.any Call.looksUpParam then parsedParam q k else none

structure ParamsAfter (q : HttpRequest) (h : History) (s : Store) : Prop where
  request : s.request = q
  query : s.queryParsed = h.any Call.looksUpParam
  body : s.bodyParsed = h.any Call.looksUpParam
  sorted : OrderedMap.Sorted bytesLess folded s.params
  stored : ∀ k, MapType.find k s.params = storedParam q h k

def parsedStore (s : Store) : Store := initBodyParam (initQueryParam s)

attribute [local simp] storedParam

theorem parsedStore_done (s : Store) (hq : s.queryParsed = true) (hb : s.bodyParsed = true) :
    parsedStore s = s := by
  rw [parsedStore, initQueryParam, if_pos hq, initBodyParam, if_pos hb]

theorem parsedStore_first (s : Store) (hq : s.queryParsed = false) (hb : s.bodyParsed = false) :
    parsedStore s = { s with
      params := insertAll (bodyEntries s.request) (insertAll (queryEntries s.request) s.params)
      queryParsed := true
      bodyParsed := true } := by
  simp only [parsedStore, initQueryParam, hq, Bool.false_eq_true, if_false, initBodyParam, hb]

theorem earlyDelete_of_deleted (k : Bytes) (h : History)
    (hlast : last (Call.paramChange k) h = some none)
    (hlooked : h.any Call.looksUpParam = false) : earlyDelete k h = true := by
  induction h with
  | nil => cases hlast
  | cons c older ih =>
    obtain ⟨-, hold⟩ : c.looksUpParam = false ∧ older.any Call.looksUpParam = false := by
      simpa using hlooked
    rw [last, List.findSome?_cons] at hlast
    rw [earlyDelete]
    cases hc : c.paramChange k with
    | none =>
      rw [hc] at hlast
      exact ih hlast hold
    | some change =>
      rw [hc] at hlast
      obtain rfl : change = none := Option.some.inj hlast
      simp only [hold, Bool.not_false]

theorem last_skip (change : Call → Option (Option Bytes)) (c : Call) (h : History)
    (hc : change c = none) : last change (c::h) = last change h := by
  rw [last, List.findSome?_cons, hc, last]

theorem last_change (change : Call → Option (Option Bytes)) (c : Call) (h : History)
    (m : Option Bytes) (hc : change c = some m) : last change (c::h) = some m := by
  rw [last, List.findSome?_cons, hc]

/-- A call that neither looks up nor changes the key leaves what is stored. -/
theorem storedParam_skip (q : HttpRequest) (c : Call) (h : History) (k : Bytes)
    (hl : c.looksUpParam = false) (hc : c.paramChange k = none) :
    storedParam q (c::h) k = storedParam q h k := by
  simp only [storedParam, last_skip _ c h hc, List.any_cons, hl, Bool.false_or, earlyDelete, hc]

theorem storedParam_set (q : HttpRequest) (c : Call) (h : History) (k v : Bytes)
    (hc : c.paramChange k = some (some v)) : storedParam q (c::h) k = some v := by
  simp only [storedParam, last_change _ c h _ hc]

theorem storedParam_delete (q : HttpRequest) (c : Call) (h : History) (k : Bytes)
    (hl : c.looksUpParam = false) (hc : c.paramChange k = some none) :
    storedParam q (c::h) k = none := by
  simp only [storedParam, last_change _ c h _ hc, List.any_cons, hl, Bool.false_or, earlyDelete, hc,
    Bool.and_not_self, Bool.false_eq_true, if_false]

/-- A lookup parses once, and adds what the history left open. -/
theorem params_lookup (q : HttpRequest) (h : History) (s : Store) (c : Call)
    (hs : ParamsAfter q h s) (hl : c.looksUpParam = true)
    (hc : ∀ k, c.paramChange k = none) : ParamsAfter q (c::h) (parsedStore s) := by
  have hlooked : (c::h).any Call.looksUpParam = true := by rw [List.any_cons, hl, Bool.true_or]
  cases hd : h.any Call.looksUpParam with
  | true =>
    rw [parsedStore_done s (hs.query.trans hd) (hs.body.trans hd)]
    refine ⟨hs.request, hs.query.trans (hd.trans hlooked.symm),
      hs.body.trans (hd.trans hlooked.symm), hs.sorted, ?_⟩
    intro k
    rw [hs.stored k, storedParam, storedParam, last_skip _ c h (hc k), hlooked, hd, earlyDelete,
      hc k]
  | false =>
    rw [parsedStore_first s (hs.query.trans hd) (hs.body.trans hd)]
    refine ⟨hs.request, hlooked.symm, hlooked.symm,
      sorted_insertAll _ _ (sorted_insertAll _ _ hs.sorted), ?_⟩
    intro k
    have hparsed : MapType.find k (insertAll (bodyEntries s.request)
        (insertAll (queryEntries s.request) s.params)) =
          (storedParam q h k).or (parsedParam q k) := by
      rw [find_insertAll, find_insertAll, hs.stored k, hs.request, parsedParam, firstValue_append,
        Option.or_assoc]
    rw [hparsed, storedParam, storedParam, last_skip _ c h (hc k), hlooked, hd]
    cases hlast : last (Call.paramChange k) h with
    | none => rfl
    | some change =>
      cases change with
      | some v => rfl
      | none =>
        have hearly := earlyDelete_of_deleted k h hlast hd
        simp only [earlyDelete, hc k, hearly]
        rfl

/-- A call that touches neither the parameters nor their flags. -/
theorem params_frame (q : HttpRequest) (h : History) (s s' : Store) (c : Call)
    (hs : ParamsAfter q h s) (hl : c.looksUpParam = false) (hc : ∀ k, c.paramChange k = none)
    (hreq : s'.request = s.request) (hparams : s'.params = s.params)
    (hq : s'.queryParsed = s.queryParsed) (hb : s'.bodyParsed = s.bodyParsed) :
    ParamsAfter q (c::h) s' := by
  have hany : (c::h).any Call.looksUpParam = h.any Call.looksUpParam := by
    rw [List.any_cons, hl, Bool.false_or]
  refine ⟨hreq.trans hs.request, hq.trans (hs.query.trans hany.symm),
    hb.trans (hs.body.trans hany.symm), hparams ▸ hs.sorted, ?_⟩
  intro k
  rw [hparams, hs.stored k, storedParam_skip q c h k hl (hc k)]

theorem params_set (q : HttpRequest) (h : History) (s : Store) (key val : Bytes)
    (hs : ParamsAfter q h s) : ParamsAfter q (.setParam key val::h) (setParam s key val) := by
  refine ⟨hs.request, hs.query, hs.body, ?_, ?_⟩
  · rw [setParam, assign_eq]
    exact OrderedMap.sorted_assign bytesLess_order key val _ hs.sorted
  · intro k
    rw [setParam, find_eq, assign_eq]
    by_cases hk : folded k = folded key
    · rw [OrderedMap.find_assign_same bytesLess_order key k val _ hk,
        storedParam_set q (.setParam key val) h k val (if_pos hk.symm)]
    · rw [OrderedMap.find_assign_other bytesLess_order key k val _ hk, ← find_eq, hs.stored k,
        storedParam_skip q (.setParam key val) h k rfl (if_neg (Ne.symm hk))]

theorem params_delete (q : HttpRequest) (h : History) (s : Store) (key : Bytes)
    (hs : ParamsAfter q h s) : ParamsAfter q (.delParam key::h) (delParam s key) := by
  refine ⟨hs.request, hs.query, hs.body, OrderedMap.sorted_erase key _ hs.sorted, ?_⟩
  intro k
  rw [delParam, find_eq, erase]
  by_cases hk : folded k = folded key
  · rw [OrderedMap.find_erase_same bytesLess_order key k _ hs.sorted hk,
      storedParam_delete q (.delParam key) h k rfl (if_pos hk.symm)]
  · rw [OrderedMap.find_erase_other bytesLess_order key k _ hs.sorted hk, ← find_eq, hs.stored k,
      storedParam_skip q (.delParam key) h k rfl (if_neg (Ne.symm hk))]

theorem initCookies_frame (s : Store) : (initCookies s).request = s.request ∧
    (initCookies s).params = s.params ∧ (initCookies s).queryParsed = s.queryParsed ∧
    (initCookies s).bodyParsed = s.bodyParsed := by
  unfold initCookies
  split_ifs <;> exact ⟨rfl, rfl, rfl, rfl⟩

theorem params_after (q : HttpRequest) (h : History) : ParamsAfter q h (after q h) := by
  induction h with
  | nil => exact ⟨rfl, rfl, rfl, .nil, fun _ => rfl⟩
  | cons c older ih =>
    obtain ⟨hr, hp, hq, hb⟩ := initCookies_frame (after q older)
    rw [after]
    cases c with
    | setParam key val => exact params_set q older _ key val ih
    | delParam key => exact params_delete q older _ key ih
    | getParam key default => exact params_lookup q older _ _ ih rfl fun _ => rfl
    | hasParam key => exact params_lookup q older _ _ ih rfl fun _ => rfl
    | setCookie key val =>
      exact params_frame q older _ _ _ ih rfl (fun _ => rfl) rfl rfl rfl rfl
    | delCookie key => exact params_frame q older _ _ _ ih rfl (fun _ => rfl) rfl rfl rfl rfl
    | getCookie key default => exact params_frame q older _ _ _ ih rfl (fun _ => rfl) hr hp hq hb
    | hasCookie key => exact params_frame q older _ _ _ ih rfl (fun _ => rfl) hr hp hq hb

end Params

section Cookies

structure CookiesAfter (q : HttpRequest) (h : History) (s : Store) : Prop where
  request : s.request = q
  flag : s.cookiesParsed = true → q.getHeader (ascii "cookie") = []
  sorted : OrderedMap.Sorted bytesLess folded s.cookies
  set : ∀ k v, last (Call.cookieChange k) h = some (some v) →
    MapType.find k s.cookies = some v
  unset : ∀ k, (∀ v, last (Call.cookieChange k) h ≠ some (some v)) →
    MapType.find k s.cookies = none ∨ MapType.find k s.cookies = parsedCookie q k

theorem parsedCookie_empty (q : HttpRequest) (k : Bytes)
    (h : q.getHeader (ascii "cookie") = []) : parsedCookie q k = none := by
  rw [parsedCookie, cookieEntries, h]
  rfl

theorem initCookies_find (q : HttpRequest) (h : History) (s : Store) (hs : CookiesAfter q h s)
    (k : Bytes) : MapType.find k (initCookies s).cookies =
      (MapType.find k s.cookies).or (parsedCookie q k) := by
  unfold initCookies
  split_ifs with hf he
  · rw [parsedCookie_empty q k (hs.flag hf), Option.or_none]
  · rw [hs.request] at he
    rw [parsedCookie_empty q k (List.isEmpty_iff.mp he), Option.or_none]
  · rw [find_insertAll, hs.request, parsedCookie]

theorem cookies_lookup (q : HttpRequest) (h : History) (s : Store) (c : Call)
    (hs : CookiesAfter q h s) (hc : ∀ k, c.cookieChange k = none) :
    CookiesAfter q (c::h) (initCookies s) := by
  refine ⟨(initCookies_frame s).1.trans hs.request, ?_, ?_, ?_, ?_⟩
  · intro hf
    unfold initCookies at hf
    split_ifs at hf with h₁ h₂
    · exact hs.flag h₁
    · rw [hs.request] at h₂
      exact List.isEmpty_iff.mp h₂
    · exact absurd hf h₁
  · unfold initCookies
    split_ifs
    · exact hs.sorted
    · exact hs.sorted
    · exact sorted_insertAll _ _ hs.sorted
  · intro k v hlast
    rw [last_skip _ c h (hc k)] at hlast
    rw [initCookies_find q h s hs k, hs.set k v hlast]
    rfl
  · intro k hlast
    rw [last_skip _ c h (hc k)] at hlast
    rw [initCookies_find q h s hs k]
    right
    rcases hs.unset k hlast with hf | hf
    · rw [hf]
      rfl
    · rw [hf, Option.or_self]

theorem cookies_frame (q : HttpRequest) (h : History) (s s' : Store) (c : Call)
    (hs : CookiesAfter q h s) (hc : ∀ k, c.cookieChange k = none)
    (hreq : s'.request = s.request) (hcookies : s'.cookies = s.cookies)
    (hf : s'.cookiesParsed = s.cookiesParsed) : CookiesAfter q (c::h) s' := by
  refine ⟨hreq.trans hs.request, ?_, hcookies ▸ hs.sorted, ?_, ?_⟩
  · rw [hf]
    exact hs.flag
  · intro k v hlast
    rw [last_skip _ c h (hc k)] at hlast
    rw [hcookies, hs.set k v hlast]
  · intro k hlast
    rw [last_skip _ c h (hc k)] at hlast
    rw [hcookies]
    exact hs.unset k hlast

/-- A call that gives one cookie the value `m`, or takes it away. -/
theorem cookies_change (q : HttpRequest) (h : History) (s s' : Store) (c : Call) (key : Bytes)
    (m : Option Bytes) (hs : CookiesAfter q h s)
    (hc : ∀ k, c.cookieChange k = if folded key = folded k then some m else none)
    (hfind : ∀ k, MapType.find k s'.cookies =
      if folded key = folded k then m else MapType.find k s.cookies)
    (hreq : s'.request = s.request) (hf : s'.cookiesParsed = s.cookiesParsed)
    (hsorted : OrderedMap.Sorted bytesLess folded s'.cookies) : CookiesAfter q (c::h) s' := by
  have hlast : ∀ k, last (Call.cookieChange k) (c::h) =
      if folded key = folded k then some m else last (Call.cookieChange k) h := by
    intro k
    have hk := hc k
    split_ifs at hk ⊢
    · exact last_change _ _ h _ hk
    · exact last_skip _ _ h hk
  refine ⟨hreq.trans hs.request, ?_, hsorted, ?_, ?_⟩
  · rw [hf]
    exact hs.flag
  · intro k v hv
    rw [hlast] at hv
    rw [hfind]
    split_ifs at hv ⊢ with hk
    · exact Option.some.inj hv
    · exact hs.set k v hv
  · intro k hv
    simp only [hlast] at hv
    rw [hfind]
    split_ifs at hv ⊢ with hk
    · cases m with
      | none => exact .inl rfl
      | some v => exact absurd rfl (hv v)
    · exact hs.unset k hv

theorem cookies_set (q : HttpRequest) (h : History) (s : Store) (key val : Bytes)
    (hs : CookiesAfter q h s) : CookiesAfter q (.setCookie key val::h) (setCookie s key val) := by
  refine cookies_change q h s _ _ key (some val) hs (fun _ => rfl) ?_ rfl rfl ?_
  · intro k
    rw [setCookie, find_eq, assign_eq]
    split_ifs with hk
    · exact OrderedMap.find_assign_same bytesLess_order key k val _ hk.symm
    · rw [OrderedMap.find_assign_other bytesLess_order key k val _ (Ne.symm hk), find_eq]
  · rw [setCookie, assign_eq]
    exact OrderedMap.sorted_assign bytesLess_order key val _ hs.sorted

theorem cookies_delete (q : HttpRequest) (h : History) (s : Store) (key : Bytes)
    (hs : CookiesAfter q h s) : CookiesAfter q (.delCookie key::h) (delCookie s key) := by
  refine cookies_change q h s _ _ key none hs (fun _ => rfl) ?_ rfl rfl
    (OrderedMap.sorted_erase key _ hs.sorted)
  intro k
  rw [delCookie, find_eq, erase]
  split_ifs with hk
  · exact OrderedMap.find_erase_same bytesLess_order key k _ hs.sorted hk.symm
  · rw [OrderedMap.find_erase_other bytesLess_order key k _ hs.sorted (Ne.symm hk), find_eq]

theorem parsedStore_frame (s : Store) : (parsedStore s).request = s.request ∧
    (parsedStore s).cookies = s.cookies ∧ (parsedStore s).cookiesParsed = s.cookiesParsed := by
  unfold parsedStore initBodyParam initQueryParam
  split_ifs <;> exact ⟨rfl, rfl, rfl⟩

theorem cookies_after (q : HttpRequest) (h : History) : CookiesAfter q h (after q h) := by
  induction h with
  | nil =>
    refine ⟨rfl, fun hf => ?_, .nil, fun k v hv => ?_, fun _ _ => .inl rfl⟩
    · cases hf
    · cases hv
  | cons c older ih =>
    obtain ⟨hr, hc, hf⟩ := parsedStore_frame (after q older)
    rw [after]
    cases c with
    | setParam key val => exact cookies_frame q older _ _ _ ih (fun _ => rfl) rfl rfl rfl
    | delParam key => exact cookies_frame q older _ _ _ ih (fun _ => rfl) rfl rfl rfl
    | getParam key default => exact cookies_frame q older _ _ _ ih (fun _ => rfl) hr hc hf
    | hasParam key => exact cookies_frame q older _ _ _ ih (fun _ => rfl) hr hc hf
    | setCookie key val => exact cookies_set q older _ key val ih
    | delCookie key => exact cookies_delete q older _ key ih
    | getCookie key default => exact cookies_lookup q older _ _ ih fun _ => rfl
    | hasCookie key => exact cookies_lookup q older _ _ ih fun _ => rfl

end Cookies

section Lookups

theorem hasParam_found (q : HttpRequest) (h : History) (k : Bytes) :
    (hasParam (after q h) k).1 =
      match last (Call.paramChange k) h with
      | some (some v) => some v
      | some none => if earlyDelete k h then parsedParam q k else none
      | none => parsedParam q k := by
  have hlookup := (params_lookup q h _ (.hasParam k) (params_after q h) rfl fun _ => rfl).stored k
  have hfound : (hasParam (after q h) k).1 = storedParam q (.hasParam k::h) k := hlookup
  rw [hfound, storedParam, last_skip _ _ h rfl]
  rfl

theorem hasCookie_found (q : HttpRequest) (h : History) (k : Bytes) :
    (hasCookie (after q h) k).1 =
      match last (Call.cookieChange k) h with
      | some (some v) => some v
      | _ => parsedCookie q k := by
  have hs := cookies_after q h
  have hfound : (hasCookie (after q h) k).1 =
      (MapType.find k (after q h).cookies).or (parsedCookie q k) := initCookies_find q h _ hs k
  have hopen : (∀ v, last (Call.cookieChange k) h ≠ some (some v)) →
      (hasCookie (after q h) k).1 = parsedCookie q k := by
    intro hno
    rw [hfound]
    rcases hs.unset k hno with hf | hf
    · rw [hf]
      rfl
    · rw [hf, Option.or_self]
  cases hlast : last (Call.cookieChange k) h with
  | none => exact hopen fun v hv => by rw [hlast] at hv; cases hv
  | some change =>
    cases change with
    | none => exact hopen fun v hv => by rw [hlast] at hv; cases hv
    | some v =>
      rw [hfound, hs.set k v hlast]
      rfl

theorem earlyDelete_last (k : Bytes) (h : History) (he : earlyDelete k h = true) :
    last (Call.paramChange k) h = some none := by
  induction h with
  | nil => cases he
  | cons c older ih =>
    rw [earlyDelete] at he
    cases hc : c.paramChange k with
    | none =>
      rw [hc] at he
      rw [last_skip _ c older hc, ih he]
    | some change =>
      cases change with
      | none => exact last_change _ c older none hc
      | some v =>
        rw [hc] at he
        cases he

/-- A lookup gives the last set or delete of its key, or else the first value of the
request: of a parameter exactly if the last modification is not a delete from before
the first lookup of a key that the request has, of a cookie exactly if it is not a
delete of one that the header has. -/
theorem lookup_answers_iff (q : HttpRequest) (h : History) (k : Bytes) :
    (ParamAnswers q h k ↔ ¬ (earlyDelete k h = true ∧ parsedParam q k ≠ none)) ∧
      (CookieAnswers q h k ↔
        ¬ (last (Call.cookieChange k) h = some none ∧ parsedCookie q k ≠ none)) := by
  constructor
  · have hget : ParamAnswers q h k ↔ (hasParam (after q h) k).1 =
        (last (Call.paramChange k) h).getD (parsedParam q k) :=
      ⟨And.left, fun heq => ⟨heq, fun default => congrArg (Option.getD · default) heq⟩⟩
    rw [hget, hasParam_found]
    cases hlast : last (Call.paramChange k) h with
    | none =>
      refine iff_of_true rfl ?_
      rintro ⟨he, -⟩
      rw [earlyDelete_last k h he] at hlast
      cases hlast
    | some change =>
      cases change with
      | some v =>
        refine iff_of_true rfl ?_
        rintro ⟨he, -⟩
        rw [earlyDelete_last k h he] at hlast
        cases hlast
      | none =>
        cases earlyDelete k h with
        | true => simp
        | false => simp
  · have hget : CookieAnswers q h k ↔ (hasCookie (after q h) k).1 =
        (last (Call.cookieChange k) h).getD (parsedCookie q k) :=
      ⟨And.left, fun heq => ⟨heq, fun default => congrArg (Option.getD · default) heq⟩⟩
    rw [hget, hasCookie_found]
    cases last (Call.cookieChange k) h with
    | none => simp
    | some change =>
      cases change with
      | some v => simp
      | none => simp

def pageRequest : HttpRequest :=
  { HttpRequest.new with
    query := ascii "page=1"
    headers := [(ascii "Cookie", ascii "id=7")] }

/-- A parameter deleted before the first lookup and a deleted cookie are back. -/
theorem deleted_values_return :
    (hasParam (after pageRequest [.delParam (ascii "page")]) (ascii "page")).1 =
        some (ascii "1") ∧
      ¬ ParamAnswers pageRequest [.delParam (ascii "page")] (ascii "page") ∧
      (hasCookie (after pageRequest [.delCookie (ascii "id"), .hasCookie (ascii "id")])
        (ascii "id")).1 = some (ascii "7") ∧
      ¬ CookieAnswers pageRequest [.delCookie (ascii "id"), .hasCookie (ascii "id")]
        (ascii "id") := by
  have hparam : (hasParam (after pageRequest [.delParam (ascii "page")]) (ascii "page")).1 =
      some (ascii "1") := by decide
  have hcookie : (hasCookie (after pageRequest [.delCookie (ascii "id"), .hasCookie (ascii "id")])
      (ascii "id")).1 = some (ascii "7") := by decide
  refine ⟨hparam, ?_, hcookie, ?_⟩
  · intro h
    rw [ParamAnswers, hparam] at h
    exact absurd h.1 (by decide)
  · intro h
    rw [CookieAnswers, hcookie] at h
    exact absurd h.1 (by decide)

end Lookups

end Lamb.HttpParams
