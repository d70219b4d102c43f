import Lamb.HttpRequestHead
import Lamb.UrlAccepted
import Lamb.HttpRequestDump

/-!
# The first line of a request

The method is found by its letters: the parser keeps a candidate and switches to another
one where a letter does not fit. The request target is a path with a query and a fragment;
the parser of the line and the one that splits the target step through the same states.
-/

set_option autoImplicit false

namespace Lamb.HttpRequestLine
open Lamb.ByteString Lamb.Http Lamb.HttpUrl Lamb.HttpMachine Lamb.HttpParser Lamb.Tokens
open Lamb.HttpResponseHead Lamb.HttpResponseDump Lamb.HttpHeaderLines Lamb.HttpRequestHead
open Lamb.UrlGrammar Lamb.UrlAccepted

variable {cfg : Config}

structure Line where
  state : State
  method : HttpMethod
  index : ℕ
  major : ℕ
  minor : ℕ

def Line.parser (l : Line) (n : ℕ) : HttpMachine.HttpParser :=
  { HttpMachine.HttpParser.init .request with
    state := l.state
    method := l.method
    index := l.index
    httpMajor := l.major
    httpMinor := l.minor
    contentLength := ullongMax
    nread := n }

def Line.call (l : Line) (n : ℕ) (b : Buffers Token RequestSink) : Call RequestSink :=
  ⟨l.parser n, b, true, n⟩

section Step

variable {l l' : Line} {b b' : Buffers Token RequestSink} {ch : UInt8}

structure Passes (cfg : Config) (l : Line) (b : Buffers Token RequestSink) (bs : Bytes) (l' : Line)
    (b' : Buffers Token RequestSink) : Prop where
  read : ∀ n, n+bs.length ≤ cfg.maxHeaderSize → n+bs.length < 2^32 →
    HttpCalls.read cfg (requestSettings cfg) bs (l.call n b) = l'.call (n+bs.length) b'
  finished : b'.data.finished = b.data.finished
  unfinished : b.data.finished = false → ∀ n, n+bs.length ≤ cfg.maxHeaderSize →
    n+bs.length < 2^32 → Unfinished cfg bs (l.call n b)

theorem passes_nil : Passes cfg l b [] l b where
  read := fun _ _ _ => rfl
  finished := rfl
  unfinished := fun _ _ _ _ => unfinished_nil _

theorem Passes.append {l₁ : Line} {b₁ : Buffers Token RequestSink} {as bs : Bytes}
    (h : Passes cfg l b as l₁ b₁) (h' : Passes cfg l₁ b₁ bs l' b') :
    Passes cfg l b (as ++ bs) l' b' where
  read := by
    intro n hroom hword
    rw [List.length_append] at hroom hword
    rw [HttpCalls.read_append, h.read n (by omega) (by omega),
      h'.read (n+as.length) (by omega) (by omega), List.length_append, Nat.add_assoc]
  finished := h'.finished.trans h.finished
  unfinished := by
    intro hb n hroom hword
    rw [List.length_append] at hroom hword
    refine (h.unfinished hb n (by omega) (by omega)).append ?_
    rw [h.read n (by omega) (by omega)]
    exact h'.unfinished (h.finished.trans hb) _ (by omega) (by omega)

theorem Passes.cons {l₁ : Line} {b₁ : Buffers Token RequestSink} {bs : Bytes}
    (h : Passes cfg l b [ch] l₁ b₁) (h' : Passes cfg l₁ b₁ bs l' b') :
    Passes cfg l b (ch::bs) l' b' := h.append h'

theorem passes_byte (ops : List Op) (hs : parsingHeader l.state = true)
    (h : ∀ n, reexecute cfg (l.parser n) ch = .go (l'.parser n) ops)
    (hops : runOps (requestSettings cfg) ⟨l'.major, l'.minor, l'.method, 0⟩ ch ops b = (b', none))
    (hfinished : b'.data.finished = b.data.finished) :
    Passes cfg l b [ch] l' (b'.extend ch) where
  read := by
    intro n hroom hword
    have hmod : (n+1) % 2^32 = n+1 := Nat.mod_eq_of_lt hword
    have hcount : countHeaderSize cfg (l.parser n) 1 (fun p => reexecute cfg p ch) =
        reexecute cfg (l.parser (n+1)) ch := by
      change (if cfg.maxHeaderSize < (n+1) % 2^32 then _ else
        reexecute cfg (l.parser ((n+1) % 2^32)) ch) = _
      rw [hmod]
      exact if_neg (Nat.not_lt.mpr hroom)
    have hbyte : byte cfg (l.parser n) ch = .go (l'.parser (n+1)) ops := by
      rw [byte, if_pos ⟨hs, rfl⟩, hcount, h]
    have hrun : runOps (requestSettings cfg) (info (l'.parser (n+1))) ch ops b = (b', none) := hops
    change Call.step cfg (requestSettings cfg) (l.call n b) ch = _
    simp only [Call.step, Line.call, hbyte, hrun, Bool.not_true, Bool.false_eq_true, if_false,
      List.length_singleton]
  finished := hfinished
  unfinished := fun hb _ _ _ => unfinished_byte hb

theorem passes_plain {d : RequestSink} (hs : parsingHeader l.state = true)
    (h : ∀ n, reexecute cfg (l.parser n) ch = .go (l'.parser n) []) :
    Passes cfg l (.clear d) [ch] l' (.clear d) := passes_byte [] hs h rfl rfl

end Step

/-! ## The method -/

/-- What `HttpMethodToString` writes. -/
def methodName : HttpMethod → Bytes := Config.standard.methodString

def nextMethod (m : HttpMethod) (i : ℕ) (ch : UInt8) : Option HttpMethod :=
  if ch = 0 then none
  else if ch = (methodName m).getD i 0 then some m
  else if (65 ≤ ch ∧ ch ≤ 90) ∨ ch = ('-' : Char) then switchMethod m i ch
  else none

def methodLoop : HttpMethod → ℕ → Bytes → Option HttpMethod
  | m, _, [] => some m
  | m, i, ch::rest => (nextMethod m i ch).bind fun m' => methodLoop m' (i+1) rest

attribute [local simp] methodLoop

def methodOf : Bytes → Option HttpMethod
  | [] => none
  | c::rest =>
    if isAlpha c then (firstMethod c).bind fun m => methodLoop m 1 rest else none

theorem methodOf_name (m : HttpMethod) : methodOf (methodName m) = some m := by
  cases m <;> decide

section Method

variable {d : RequestSink} {m : HttpMethod}

theorem passes_letters (hnames : cfg.methodString = methodName) {a b : ℕ} (w : Bytes)
    {m₀ : HttpMethod} {i : ℕ} (h : methodLoop m₀ i w = some m) :
    Passes cfg ⟨.reqMethod, m₀, i, a, b⟩ (.clear d) w ⟨.reqMethod, m, i+w.length, a, b⟩
      (.clear d) := by
  induction w generalizing m₀ i with
  | nil =>
    obtain rfl := Option.some.inj h
    exact passes_nil
  | cons ch rest ih =>
    obtain ⟨m₁, hnext, hrest⟩ := Option.bind_eq_some_iff.mp h
    have hone : Passes cfg ⟨.reqMethod, m₀, i, a, b⟩ (.clear d) [ch] ⟨.reqMethod, m₁, i+1, a, b⟩
        (.clear d) := by
      refine passes_plain rfl fun n => ?_
      change reqMethod cfg _ ch = _
      have hspace : ¬ (ch = (' ' : Char) ∧ (methodName m₀).getD i 0 = 0) := by
        rintro ⟨rfl, hzero⟩
        rw [nextMethod, hzero, if_neg (by decide), if_neg (by decide), if_neg (by decide)] at hnext
        cases hnext
      simp only [reqMethod, nextMethod, Line.parser, hnames] at hnext hspace ⊢
      rw [if_neg hspace]
      split_ifs at hnext ⊢ with h0 hexpected hupper
      · obtain rfl := Option.some.inj hnext
        rfl
      · rw [hnext]
    have hlength : i+(ch::rest).length = i+1+rest.length := by
      rw [List.length_cons]
      omega
    rw [hlength]
    exact hone.cons (ih hrest)

theorem passes_method (hnames : cfg.methodString = methodName) (m m₀ : HttpMethod) (i a b : ℕ) :
    Passes cfg ⟨.startReq, m₀, i, a, b⟩ (.clear d) (methodName m ++ [32])
      ⟨.reqSpacesBeforeUrl, m, (methodName m).length+1, a, b⟩ (.clear d) := by
  have hname := methodOf_name m
  cases hw : methodName m with
  | nil =>
    rw [hw] at hname
    cases hname
  | cons c rest =>
    rw [hw] at hname
    simp only [methodOf] at hname
    split_ifs at hname with halpha
    obtain ⟨m₁, hfirst, hloop⟩ := Option.bind_eq_some_iff.mp hname
    have hstart : Passes cfg ⟨.startReq, m₀, i, a, b⟩ (.clear d) [c] ⟨.reqMethod, m₁, 1, a, b⟩
        (.clear d) := by
      refine passes_byte [.notify .messageBegin] rfl (fun n => ?_) rfl rfl
      have hend : ¬ (c = CR ∨ c = LF) := by
        rintro (rfl | rfl) <;> exact absurd halpha (by decide)
      change startReq _ c = _
      simp only [startReq, hend, halpha, hfirst, if_false, Bool.not_true, Bool.false_eq_true]
      rfl
    have hspace : Passes cfg ⟨.reqMethod, m, 1+rest.length, a, b⟩ (.clear d) [32]
        ⟨.reqSpacesBeforeUrl, m, (c::rest).length+1, a, b⟩ (.clear d) := by
      refine passes_plain rfl fun n => ?_
      have hlast : (methodName m).getD (1+rest.length) 0 = 0 := by
        rw [hw]
        simp [Nat.add_comm 1]
      change reqMethod cfg _ 32 = _
      simp only [reqMethod, Line.parser, hnames, hlast]
      rw [if_neg (by decide), if_pos ⟨by decide, trivial⟩]
      simp only [HttpMachine.HttpParser.goto, List.length_cons, Nat.add_comm 1]
    rw [List.cons_append]
    exact hstart.cons ((passes_letters hnames rest hloop).append hspace)

end Method

/-! ## The target -/

structure LegalTarget (strict : Bool) (q : HttpRequest) : Prop where
  path : ∃ rest, q.path = ('/' : UInt8)::rest ∧ ∀ c ∈ rest, isUrlChar strict c = true
  query : ∀ c ∈ q.query, isQueryChar strict c = true
  fragment : (∀ c ∈ q.fragment, isFragmentChar strict c = true) ∧ ∀ c ∈ q.fragment.head?, c ≠ '#'

def target (q : HttpRequest) : Bytes :=
  q.path ++ (if q.query.isEmpty then [] else ascii "?") ++ q.query ++
    (if q.fragment.isEmpty then [] else ascii "#") ++ q.fragment

section Target

variable {strict : Bool} {q : HttpRequest}

def tailOf (h : LegalTarget strict q) : Tail strict where
  path := q.path
  query := if q.query = [] then none else some q.query
  fragment := if q.fragment = [] then none else some (0, q.fragment)
  path_ok := by
    obtain ⟨rest, hpath, hrest⟩ := h.path
    rw [hpath]
    intro p hp
    obtain rfl := Option.some.inj hp
    exact ⟨rfl, hrest⟩
  query_ok := by
    intro w hw
    split_ifs at hw with hempty
    · cases hw
    · obtain rfl := Option.some.inj hw
      exact h.query
  fragment_ok := by
    intro f hf
    split_ifs at hf with hempty
    · cases hf
    · obtain rfl := Option.some.inj hf
      exact h.fragment
  apart := by
    intro _
    obtain ⟨rest, hpath, -⟩ := h.path
    exact .inl (by rw [hpath]; exact List.cons_ne_nil _ rest)

theorem tailOf_text (h : LegalTarget strict q) : (tailOf h).text = target q := by
  have hquestion : ascii "?" = [('?' : UInt8)] := by decide
  have hsign : ascii "#" = [('#' : UInt8)] := by decide
  rw [Tail.text, Tail.queryText, Tail.fragmentText, target, hquestion, hsign]
  cases hquery : q.query <;> cases hfragment : q.fragment <;>
    simp [tailOf, hquery, hfragment]

theorem urlLoop_target (h : LegalTarget strict q) (hlen : (target q).length < 2^16) :
    urlLoop strict (target q) 0 .reqSpacesBeforeUrl none false .init =
      some (tailFields (tailOf h) 0 .init, false) := by
  let t := tailOf h
  have htext : t.text = target q := tailOf_text h
  obtain ⟨rest, hpath, hrest⟩ := h.path
  have hne : t.path ≠ [] := by
    change q.path ≠ []
    rw [hpath]
    exact List.cons_ne_nil _ rest
  have hslash : ∀ c ∈ t.path.head?, parseUrlChar strict .reqSpacesBeforeUrl c = .reqPath := by
    intro c hc
    rw [(t.path_ok c hc).1]
    cases strict <;> decide
  have hstay : ∀ c ∈ t.path.tail, parseUrlChar strict .reqPath c = .reqPath := by
    intro c hc
    change c ∈ q.path.tail at hc
    rw [hpath] at hc
    exact url_stays strict c (hrest c hc)
  have hsize : t.path.length < 2^16 := by
    rw [← htext] at hlen
    simp only [Tail.text, List.length_append] at hlen
    omega
  rw [← htext] at hlen ⊢
  rw [Tail.text, List.append_assoc, urlLoop_field (t := .reqPath) rfl (by decide) (by decide)
    hslash hstay hsize, if_neg hne, if_neg hne, urlLoop_query t hlen (by decide) (fun _ _ => rfl)
    (by decide)]
  rfl

theorem parseUrl_target (h : LegalTarget strict q) (hlen : (target q).length < 2^16) :
    parseUrl strict (target q) false = some (tailFields (tailOf h) 0 .init) := by
  have hne : target q ≠ [] := by
    obtain ⟨rest, hpath, -⟩ := h.path
    rw [target, hpath]
    simp
  have hfield : ∀ uf, uf ≠ .path → uf ≠ .query → uf ≠ .fragment →
      (tailFields (tailOf h) 0 .init).field uf = none := by
    intro uf h1 h2 h3
    simp only [tailFields, field_put, h1, h2, h3, if_false, ite_self, HttpParserUrl.init]
  have hschema := hfield .schema (by decide) (by decide) (by decide)
  have hhost := hfield .host (by decide) (by decide) (by decide)
  have hport := hfield .port (by decide) (by decide) (by decide)
  simp [parseUrl, hne, urlLoop_target h hlen, hschema, hhost, HttpParserUrl.text, hport]

/-- A part of the target that stands behind `before`. -/
theorem text_between {u : HttpParserUrl} {uf : UrlField} (pos : ℕ) (before part after : Bytes)
    (hfield : u.field uf = if part = [] then none else some ⟨pos % 2^16, part.length⟩)
    (hpos : pos = before.length) (hlen : (target q).length < 2^16)
    (htext : target q = before ++ (part ++ after)) :
    u.text (target q) uf = if part = [] then none else some part := by
  have hmod : pos % 2^16 = before.length := by
    rw [hpos]
    refine Nat.mod_eq_of_lt ?_
    rw [htext, List.length_append] at hlen
    omega
  rw [HttpParserUrl.text, hfield, hmod]
  by_cases hpart : part = []
  · rw [if_pos hpart, if_pos hpart, Option.map_none]
  · rw [if_neg hpart, if_neg hpart, Option.map_some, take_between htext]

theorem onRequestUrl_target (h : LegalTarget cfg.strict q) (hlen : (target q).length < 2^16)
    (s : RequestSink) : onRequestUrl cfg (target q) s = some { s with data := { s.data with
      path := q.path
      query := if q.query = [] then s.data.query else q.query
      fragment := if q.fragment = [] then s.data.fragment else q.fragment } } := by
  have hpath : q.path ≠ [] := by
    obtain ⟨rest, hpath, -⟩ := h.path
    rw [hpath]
    exact List.cons_ne_nil _ rest
  have hquestion : ascii "?" = [('?' : UInt8)] := by decide
  have hsign : ascii "#" = [('#' : UInt8)] := by decide
  obtain ⟨u, hu⟩ : ∃ u, u = tailFields (tailOf h) 0 .init := ⟨_, rfl⟩
  have hquery : (tailOf h).query.getD [] = q.query := by
    by_cases hempty : q.query = [] <;> simp [tailOf, hempty]
  have hfragment : ((tailOf h).fragment.map Prod.snd).getD [] = q.fragment := by
    by_cases hempty : q.fragment = [] <;> simp [tailOf, hempty]
  have hp : u.text (target q) .path = some q.path := by
    refine (text_between 0 [] q.path ((if q.query.isEmpty then [] else ascii "?") ++ q.query ++
      (if q.fragment.isEmpty then [] else ascii "#") ++ q.fragment) ?_ rfl hlen ?_).trans
        (if_neg hpath)
    · simp [hu, tailFields, field_put, tailOf, HttpParserUrl.init]
    · simp [target]
  have hq : u.text (target q) .query = if q.query = [] then none else some q.query := by
    refine text_between (q.path.length+(if q.query.isEmpty then [] else ascii "?").length)
      (q.path ++ (if q.query.isEmpty then [] else ascii "?")) q.query
      ((if q.fragment.isEmpty then [] else ascii "#") ++ q.fragment) ?_
      List.length_append.symm hlen ?_
    · by_cases hempty : q.query = []
      · simp [hu, tailFields, field_put, hquery, hempty, HttpParserUrl.init]
      · simp [hu, tailFields, field_put, hempty, hquestion, tailOf]
    · simp [target]
  have hf : u.text (target q) .fragment = if q.fragment = [] then none else some q.fragment := by
    refine text_between (q.path ++ (if q.query.isEmpty then [] else ascii "?") ++ q.query ++
      (if q.fragment.isEmpty then [] else ascii "#")).length _ q.fragment [] ?_ rfl hlen ?_
    · by_cases hempty : q.fragment = []
      · simp [hu, tailFields, field_put, hfragment, hempty, HttpParserUrl.init]
      · by_cases hnone : q.query = [] <;>
          simp [hu, tailFields, field_put, hempty, hnone, hquestion, hsign, tailOf, Tail.queryText,
            Nat.add_assoc]
    · simp [target]
  rw [onRequestUrl, parseUrl_target h hlen, ← hu, Option.map_some]
  simp only [hp, hq, hf]
  by_cases h1 : q.query = [] <;> by_cases h2 : q.fragment = [] <;> simp [h1, h2]

theorem tailStates_heading : ∀ s ∈ tailStates, parsingHeader s = true := by decide

theorem passes_target_byte {s : State} (hs : s ∈ tailStates) {m : HttpMethod} {i a b : ℕ}
    {d : RequestSink} {pre : Bytes} {ch : UInt8} (hlive : parseUrlChar cfg.strict s ch ≠ .dead) :
    Passes cfg ⟨s, m, i, a, b⟩ (.opened d .url pre) [ch]
      ⟨parseUrlChar cfg.strict s ch, m, i, a, b⟩ (.opened d .url (pre ++ [ch])) := by
  obtain ⟨hspace, hend⟩ := not_or.mp (live_visible hlive).1
  rw [← extend_opened]
  refine passes_byte [] (tailStates_heading s hs) (fun n => ?_) rfl rfl
  have hurl : reexecute cfg ((⟨s, m, i, a, b⟩ : Line).parser n) ch =
      urlRest cfg ((⟨s, m, i, a, b⟩ : Line).parser n) ch := by
    simp only [tailStates, List.mem_cons, List.not_mem_nil, or_false] at hs
    rcases hs with rfl | rfl | rfl | rfl | rfl <;> rfl
  rw [hurl, urlRest, if_neg hspace, if_neg hend]
  exact if_neg hlive

theorem passes_target_rest (m : HttpMethod) (i a b : ℕ) (d : RequestSink) (pre w : Bytes)
    {s : State} (hs : s ∈ tailStates)
    (hlive : w.foldl (parseUrlChar cfg.strict) s ≠ .dead) :
    w.foldl (parseUrlChar cfg.strict) s ∈ tailStates ∧
      Passes cfg ⟨s, m, i, a, b⟩ (.opened d .url pre) w
        ⟨w.foldl (parseUrlChar cfg.strict) s, m, i, a, b⟩ (.opened d .url (pre ++ w)) := by
  induction w generalizing s pre with
  | nil =>
    rw [List.append_nil]
    exact ⟨hs, passes_nil⟩
  | cons ch w ih =>
    rw [List.foldl_cons] at hlive ⊢
    have hone : parseUrlChar cfg.strict s ch ≠ .dead := by
      intro hdead
      refine hlive ?_
      rw [hdead]
      clear hlive ih
      induction w with
      | nil => rfl
      | cons c w ih => rw [List.foldl_cons, dead_stays, ih]
    have hnext : parseUrlChar cfg.strict s ch ∈ tailStates :=
      (List.mem_cons.mp (tail_closed cfg.strict ch s hs)).resolve_left hone
    obtain ⟨hlast, hrest⟩ := ih (pre ++ [ch]) hnext hlive
    rw [List.append_assoc] at hrest
    exact ⟨hlast, (passes_target_byte hs hone).cons hrest⟩

theorem passes_target (h : LegalTarget cfg.strict q) (hlen : (target q).length < 2^16)
    {m : HttpMethod} (hm : m ≠ .CONNECT) {i a b : ℕ} {d : RequestSink} {d' : RequestSink}
    (hd : onRequestUrl cfg (target q) d = some d') :
    Passes cfg ⟨.reqSpacesBeforeUrl, m, i, a, b⟩ (.clear d) (target q ++ [32])
      ⟨.reqHttpStart, m, i, a, b⟩ (.clear d') := by
  obtain ⟨rest, hpath, -⟩ := h.path
  obtain ⟨w, htarget⟩ : ∃ w, target q = 47::w := by
    refine ⟨rest ++ ((if q.query.isEmpty then [] else ascii "?") ++ q.query ++
      (if q.fragment.isEmpty then [] else ascii "#") ++ q.fragment), ?_⟩
    simp only [target, hpath, List.cons_append, List.append_assoc]
    rfl
  have hslash : parseUrlChar cfg.strict .reqSpacesBeforeUrl 47 = .reqPath := by
    cases cfg.strict <;> decide
  have hlive := urlLoop_live (target q) (by decide) (urlLoop_target h hlen)
  rw [htarget, List.foldl_cons, hslash] at hlive
  rw [htarget] at hd
  have hfinished : d'.finished = d.finished := by
    obtain ⟨u, -, rfl⟩ := Option.map_eq_some_iff.mp hd
    rfl
  have hfirst : Passes cfg ⟨.reqSpacesBeforeUrl, m, i, a, b⟩ (.clear d) [47]
      ⟨.reqPath, m, i, a, b⟩ (.opened d .url [47]) := by
    rw [← List.nil_append [47], ← extend_opened]
    refine passes_byte [.mark .url] rfl (fun n => ?_) rfl rfl
    change reqSpacesBeforeUrl cfg _ 47 = _
    have hmethod : ¬ ((⟨.reqSpacesBeforeUrl, m, i, a, b⟩ : Line).parser n).method = .CONNECT := hm
    have hstate : ((⟨.reqSpacesBeforeUrl, m, i, a, b⟩ : Line).parser n).state =
        .reqSpacesBeforeUrl := rfl
    simp only [reqSpacesBeforeUrl, urlChar, if_neg hmethod, hstate, hslash]
    rfl
  obtain ⟨hlast, hrest⟩ := passes_target_rest m i a b d [47] w
    (by decide : State.reqPath ∈ tailStates) hlive
  have hspace : Passes cfg ⟨w.foldl (parseUrlChar cfg.strict) .reqPath, m, i, a, b⟩
      (.opened d .url ([47] ++ w)) [32] ⟨.reqHttpStart, m, i, a, b⟩ (.clear d') := by
    rw [← extend_clear d' 32]
    refine passes_byte [.report .url false] (tailStates_heading _ hlast) (fun n => ?_) ?_
      hfinished
    · generalize w.foldl (parseUrlChar cfg.strict) .reqPath = s at hlast
      simp only [tailStates, List.mem_cons, List.not_mem_nil, or_false] at hlast
      rcases hlast with rfl | rfl | rfl | rfl | rfl <;> rfl
    · simp only [runOps]
      rw [report_opened hd]
  rw [htarget, List.cons_append]
  exact hfirst.cons (hrest.append hspace)

end Target

/-! ## The version -/

section Version

variable {m : HttpMethod} {i a b x y : ℕ} {d : RequestSink}

theorem decimal_digit (h : x < 10) : decimal x = [digit x] := by
  rw [decimal]
  split_ifs with hzero
  · rw [hzero]
    rfl
  · rw [Nat.digits_of_lt 10 x hzero h]
    rfl

theorem passes_expect {s t : State} {c : UInt8} (hs : parsingHeader s = true)
    (h : ∀ p : HttpMachine.HttpParser, p.state = s → reexecute cfg p c = expect cfg p c c t) :
    Passes cfg ⟨s, m, i, a, b⟩ (.clear d) [c] ⟨t, m, i, a, b⟩ (.clear d) := by
  refine passes_plain hs fun n => ?_
  rw [h _ rfl, expect, strictCheck, if_neg (by simp)]
  rfl

theorem passes_version (hx : x < 10) (hy : y < 10) : Passes cfg
    ⟨.reqHttpStart, m, i, a, b⟩ (.clear d)
    (ascii "HTTP/" ++ ([digit x] ++ (ascii "." ++ ([digit y] ++ crlf))))
      ⟨.headerFieldStart, m, i, x, y⟩ (.clear d) := by
  have hstart : Passes cfg ⟨.reqHttpStart, m, i, a, b⟩ (.clear d) [72] ⟨.reqHttpH, m, i, a, b⟩
      (.clear d) := passes_plain rfl fun _ => rfl
  have hname : Passes cfg ⟨.reqHttpH, m, i, a, b⟩ (.clear d) (ascii "TTP/")
      ⟨.reqHttpMajor, m, i, a, b⟩ (.clear d) :=
    (passes_expect rfl fun p hp => by rw [reexecute, hp]; rfl).append <|
    (passes_expect rfl fun p hp => by rw [reexecute, hp]; rfl).append <|
    (passes_expect rfl fun p hp => by rw [reexecute, hp]; rfl).append <|
    passes_expect rfl fun p hp => by rw [reexecute, hp]; rfl
  have hmajor : Passes cfg ⟨.reqHttpMajor, m, i, a, b⟩ (.clear d) [digit x]
      ⟨.reqHttpDot, m, i, x, b⟩ (.clear d) := by
    refine passes_plain rfl fun n => ?_
    change httpMajor _ (digit x) .reqHttpDot = _
    simp only [httpMajor, digit_num hx, digit_value hx, if_true]
    rfl
  have hdot : Passes cfg ⟨.reqHttpDot, m, i, x, b⟩ (.clear d) (ascii ".")
      ⟨.reqHttpMinor, m, i, x, b⟩ (.clear d) := passes_plain rfl fun _ => rfl
  have hminor : Passes cfg ⟨.reqHttpMinor, m, i, x, b⟩ (.clear d) [digit y]
      ⟨.reqHttpEnd, m, i, x, y⟩ (.clear d) := by
    refine passes_plain rfl fun n => ?_
    change httpMinor _ (digit y) .reqHttpEnd = _
    simp only [httpMinor, digit_num hy, digit_value hy, if_true]
    rfl
  have hcr : Passes cfg ⟨.reqHttpEnd, m, i, x, y⟩ (.clear d) [CR]
      ⟨.reqLineAlmostDone, m, i, x, y⟩ (.clear d) := passes_plain rfl fun _ => rfl
  have hlf : Passes cfg ⟨.reqLineAlmostDone, m, i, x, y⟩ (.clear d) [LF]
      ⟨.headerFieldStart, m, i, x, y⟩ (.clear d) := passes_plain rfl fun _ => rfl
  exact (hstart.append hname).append <|
    hmajor.append (hdot.append (hminor.append (hcr.append hlf)))

end Version

/-! ## The line -/

structure LegalLine (strict : Bool) (q : HttpRequest) : Prop where
  method : q.method ≠ .CONNECT
  legalTarget : LegalTarget strict q
  short : (target q).length < 2^16
  version : q.version >>> 4 < 10 ∧ q.version &&& 0x0F < 10

def lineData (q : HttpRequest) (d : RequestSink) : RequestSink :=
  { d with data := { d.data with
      path := q.path
      query := if q.query = [] then d.data.query else q.query
      fragment := if q.fragment = [] then d.data.fragment else q.fragment } }

theorem requestLine_eq (q : HttpRequest) : HttpRequestDump.requestLine methodName q ++ crlf =
    (methodName q.method ++ ([32] : Bytes)) ++ ((target q ++ ([32] : Bytes)) ++ (ascii "HTTP/" ++
      (decimal (q.version >>> 4) ++ (ascii "." ++ (decimal (q.version &&& 0x0F) ++ crlf))))) := by
  have hspace : ascii " " = [32] := by decide
  have hversion : ascii " HTTP/" = 32::ascii "HTTP/" := by decide
  simp [HttpRequestDump.requestLine, target, hspace, hversion]

theorem passes_line (hnames : cfg.methodString = methodName) {q : HttpRequest}
    (h : LegalLine cfg.strict q) (d : RequestSink) :
    Passes cfg ⟨.startReq, .DELETE, 0, 0, 0⟩ (.clear d)
      (HttpRequestDump.requestLine methodName q ++ crlf)
      ⟨.headerFieldStart, q.method, (methodName q.method).length+1, q.version >>> 4,
        q.version &&& 0x0F⟩ (.clear (lineData q d)) := by
  rw [requestLine_eq, decimal_digit h.version.1, decimal_digit h.version.2]
  exact (passes_method hnames q.method .DELETE 0 0 0).append <|
    (passes_target h.legalTarget h.short h.method
      (onRequestUrl_target h.legalTarget h.short d)).append
        (passes_version h.version.1 h.version.2)

end Lamb.HttpRequestLine
