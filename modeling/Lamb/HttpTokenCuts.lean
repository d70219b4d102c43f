import Lamb.HttpCallInvariants

/-!
# Calls that end with a token

A call that ends with the last byte of a URL or of a header field leaves the machine
inside of the token. The next call marks the token anew and reports an empty piece of
it: an empty URL is refused, an empty header field replaces the name before it.
-/

set_option autoImplicit false

namespace Lamb.HttpTokenCuts
open Lamb.ByteString Lamb.Http Lamb.HttpUrl Lamb.HttpMachine Lamb.HttpParser Lamb.HttpTrace
open Lamb.HttpCalls Lamb.HttpSegmentation Lamb.HttpCallInvariants Lamb.Tokens

section
variable {cfg : Config}

theorem leads_of_reexecute {U : State → Prop} {t : Token}
    (hU : ∀ p ch, U p.state → Leading U t p.state (reexecute cfg p ch)) : Leads cfg U t := by
  intro p ch hp
  rcases byte_reexecute cfg p ch with ⟨p', -, hb⟩ | ⟨n, hb⟩
  · rw [hb]
    exact trivial
  · rw [hb]
    exact hU { p with nread := n } ch hp

def inUrlLine (s : State) : Prop :=
  s = .startReq ∨ s = .reqMethod ∨ s = .reqSpacesBeforeUrl ∨ phase s = .url

theorem startReq_leads (p : HttpMachine.HttpParser) (ch : UInt8) (hs : p.state = .startReq) :
    Leading inUrlLine .url p.state (startReq p ch) := by
  simp only [startReq]
  split_ifs
  · exact .inl ⟨.inl hs, by decide⟩
  · exact trivial
  · cases firstMethod ch with
    | none => exact trivial
    | some m => exact .inl ⟨.inr (.inl rfl), by decide⟩

theorem reqMethod_leads (p : HttpMachine.HttpParser) (ch : UInt8) (hs : p.state = .reqMethod) :
    Leading inUrlLine .url p.state (reqMethod cfg p ch) := by
  simp only [reqMethod]
  split_ifs
  · exact trivial
  · exact .inl ⟨.inr (.inr (.inl rfl)), by decide⟩
  · exact .inl ⟨.inr (.inl hs), by decide⟩
  · cases switchMethod p.method p.index ch with
    | none => exact trivial
    | some m => exact .inl ⟨.inr (.inl hs), by decide⟩
  · exact trivial

theorem urlChar_leads (p : HttpMachine.HttpParser) (ch : UInt8) (s : State) (ops : List Op)
    (hops : .notify .messageComplete ∉ ops) :
    Leading inUrlLine .url s ((urlChar cfg p ch).after ops) := by
  simp only [urlChar]
  split_ifs with hdead
  · exact trivial
  · refine .inl ⟨.inr (.inr (.inr ?_)), by rw [List.append_nil]; exact hops⟩
    exact (parseUrlChar_url cfg.strict p.state ch).resolve_left hdead

theorem reqSpacesBeforeUrl_leads (p : HttpMachine.HttpParser) (ch : UInt8)
    (hs : p.state = .reqSpacesBeforeUrl) :
    Leading inUrlLine .url p.state (reqSpacesBeforeUrl cfg p ch) := by
  simp only [reqSpacesBeforeUrl]
  split_ifs
  · exact .inl ⟨.inr (.inr (.inl hs)), by decide⟩
  · exact urlChar_leads _ ch _ _ (by decide)
  · exact urlChar_leads _ ch _ _ (by decide)

theorem after_nil (o : Outcome) : o.after [] = o := by
  cases o <;> rfl

theorem urlOpen_leads (p : HttpMachine.HttpParser) (ch : UInt8) (s : State) :
    Leading inUrlLine .url s (urlOpen cfg p ch) := by
  unfold urlOpen
  split_ifs
  · exact trivial
  · rw [← after_nil (urlChar cfg p ch)]
    exact urlChar_leads p ch s [] List.not_mem_nil

theorem urlRest_leads (p : HttpMachine.HttpParser) (ch : UInt8) (s : State)
    (hs : reopen s = some .url) : Leading inUrlLine .url s (urlRest cfg p ch) := by
  unfold urlRest
  split_ifs
  · exact .inr ⟨hs, rfl⟩
  · exact .inr ⟨hs, rfl⟩
  · exact .inr ⟨hs, rfl⟩
  · rw [← after_nil (urlChar cfg p ch)]
    exact urlChar_leads p ch s [] List.not_mem_nil

theorem url_leads : Leads cfg inUrlLine .url := by
  apply leads_of_reexecute
  intro p ch hp
  rcases hp with hs | hs | hs | hs
  · simp only [reexecute, hs]
    rw [← hs]
    exact startReq_leads p ch hs
  · simp only [reexecute, hs]
    rw [← hs]
    exact reqMethod_leads p ch hs
  · simp only [reexecute, hs]
    rw [← hs]
    exact reqSpacesBeforeUrl_leads p ch hs
  · cases hstate : p.state <;> rw [hstate] at hs <;> first
      | exact absurd hs (by decide)
      | (simp only [reexecute, hstate]; exact urlOpen_leads p ch _)
      | (simp only [reexecute, hstate]; exact urlRest_leads p ch _ rfl)

theorem field_leads : Leads cfg (· = .headerField) .headerField := by
  apply leads_of_reexecute
  intro p ch hs
  simp only [reexecute, hs, headerField]
  by_cases htoken : token cfg ch = 0
  · rw [if_pos htoken]
    simp only [countHeaderSize]
    split_ifs
    · exact trivial
    · exact .inr ⟨rfl, rfl⟩
    · exact trivial
  · rw [if_neg htoken]
    refine .inl ⟨?_, by decide⟩
    exact (fieldChar_keeps p _ ch).1.trans hs

theorem request_finishes : Finishes (requestSettings cfg) RequestSink.finished := by
  constructor
  · intro t i bs d d' hd
    cases t with
    | url =>
      obtain ⟨u, -, rfl⟩ := Option.map_eq_some_iff.mp hd
      rfl
    | _ =>
      cases hd
      rfl
  · intro n i d hn
    cases n <;> first | rfl | exact absurd rfl hn

theorem response_finishes : Finishes responseSettings ResponseSink.finished := by
  constructor
  · intro t i bs d d' hd
    cases t <;> cases hd <;> rfl
  · intro n i d hn
    cases n <;> first | rfl | exact absurd rfl hn

theorem finish_upgrade {σ : Type} (cfg : Config) (h : Settings σ) (m : Call σ) :
    (m.finish cfg h).parser.upgrade = m.parser.upgrade := by
  simp only [Call.finish]
  split_ifs
  · rfl
  · rfl
  · split <;> rfl
  · split <;> rfl

/-- A call that begins with the byte after a URL reports an empty URL. -/
theorem url_end (p p' : HttpMachine.HttpParser) (d : RequestSink) (ch : UInt8) (rest : Bytes)
    (hp : Settled p) (hu : p.upgrade = false) (hopen : reopen p.state = some .url)
    (hb : byte cfg p ch = .go p' [.report .url false]) :
    (execute cfg (requestSettings cfg) p d (ch::rest)).1.httpErrno = .CB_url ∧
      (execute cfg (requestSettings cfg) p d (ch::rest)).1.upgrade = false := by
  have hord := byte_ordered cfg p ch hp
  rw [hb] at hord
  have hu' : p'.upgrade = false := (hord.1.kept (by decide)).trans hu
  have hrun : runOps (requestSettings cfg) (info p') ch [.report .url false]
      (openMarks p.state d) = (openMarks p.state d, some .url) := by
    simp only [runOps, runOp, openMarks, hopen, Buffers.set_self]
    rfl
  have hstep : (Call.begin p d).step cfg (requestSettings cfg) ch =
      (Call.begin p d).callbackFailed p' (openMarks p.state d) .url 1 := by
    simp only [Call.step, Call.begin, Bool.not_true, Bool.false_eq_true, if_false, hb, hrun]
  rw [execute_read p d (ch::rest) hp.errno (List.cons_ne_nil ch rest)]
  change ((read cfg _ rest ((Call.begin p d).step cfg (requestSettings cfg) ch)).finish
    cfg _).parser.httpErrno = _ ∧ ((read cfg _ rest ((Call.begin p d).step cfg
    (requestSettings cfg) ch)).finish cfg _).parser.upgrade = _
  rw [hstep, read_dead rest _ rfl]
  exact ⟨rfl, hu'⟩

theorem request_error (r : HttpRequestParser) (c : Bytes)
    (he : (execute cfg (requestSettings cfg) r.parser r.sink c).1.httpErrno ≠ .OK)
    (hu : (execute cfg (requestSettings cfg) r.parser r.sink c).1.upgrade = false) :
    (r.execute cfg c).1.hasError = true ∧ (r.execute cfg c).1.parser.httpErrno ≠ .OK ∧
      (r.execute cfg c).1.parser.upgrade = false := by
  simp only [HttpRequestParser.execute, hu, Bool.false_eq_true, if_false, ne_eq, he,
    not_false_eq_true, if_true, HttpRequestParser.hasError, decide_true, and_self]

theorem request_ok (r : HttpRequestParser) (c : Bytes)
    (he : (execute cfg (requestSettings cfg) r.parser r.sink c).1.httpErrno = .OK)
    (hu : (execute cfg (requestSettings cfg) r.parser r.sink c).1.upgrade = false) :
    (r.execute cfg c).1 =
      { r with
        parser := (execute cfg (requestSettings cfg) r.parser r.sink c).1
        sink := (execute cfg (requestSettings cfg) r.parser r.sink c).2.1 } := by
  simp only [HttpRequestParser.execute, hu, Bool.false_eq_true, if_false, ne_eq, he,
    not_true_eq_false]

theorem execute_failed (r : HttpRequestParser) (c : Bytes) (he : r.parser.httpErrno ≠ .OK) :
    (execute cfg (requestSettings cfg) r.parser r.sink c).1 = r.parser := by
  simp only [execute, ne_eq, he, not_false_eq_true, if_true]

theorem finish_url (m : Call RequestSink) (hl : m.live = true) (hs : Sound m.parser m.buffers)
    (hopen : reopen m.parser.state = some .url) :
    (Call.result (m.finish cfg (requestSettings cfg))).1.upgrade = false ∧
      ((Call.result (m.finish cfg (requestSettings cfg))).1.httpErrno = .OK →
        (Call.result (m.finish cfg (requestSettings cfg))).1 = m.parser) := by
  have hurl : phase m.parser.state = .url := by
    cases hstate : m.parser.state <;> rw [hstate] at hopen <;> first | rfl | cases hopen
  have hcalm : Calm m.parser := by
    apply hs.settled.calm <;> (intro hstate; rw [hstate] at hopen; cases hopen)
  constructor
  · refine (finish_upgrade cfg _ m).trans (hs.fresh ?_)
    rw [hurl]
    rfl
  · intro hok
    rcases @finish_live _ cfg (requestSettings cfg) m hl with ⟨hover, -⟩ | ⟨n, b, failed, hr, hfin⟩
    · exact absurd (hover.symm.trans hok) (by decide)
    · cases failed with
      | none =>
        have hparser := (finish_calm cfg (requestSettings cfg) m hl hcalm).2 (by rw [hr])
        simp only [Call.result, hparser]
        exact calm_eq hcalm
      | some t =>
        have herrno : (m.finish cfg (requestSettings cfg)).parser.httpErrno = callbackErrno t := by
          rw [hfin]
          rfl
        exact absurd (herrno.symm.trans hok) (callbackErrno_ne t)

/-- Every request is refused when it is cut right behind its URL. -/
theorem request_url_cut (bs : Bytes) (ha : AcceptsRequest cfg bs)
    (hf : (HttpRequestParser.new.execute cfg bs).1.sink.finished = true) :
    ∃ as bs', as ≠ [] ∧ bs' ≠ [] ∧ as ++ bs' = bs ∧
      (feedRequest cfg .new [as, bs']).hasError = true := by
  obtain ⟨hp, he⟩ := ha.errno
  have hbs : bs ≠ [] := by
    rintro rfl
    cases hf
  have hexec := @execute_read _ cfg (requestSettings cfg) (.init .request)
    HttpRequestParser.new.sink bs rfl hbs
  have hdone : (execute cfg (requestSettings cfg) (.init .request)
      HttpRequestParser.new.sink bs).2.1.finished = true := by
    simp only [HttpRequestParser.execute] at hf
    split_ifs at hf <;> exact hf
  rw [hexec] at hp he hdone
  obtain ⟨as, ch, rest, p', rfl, hl, hopen, hbyte⟩ := find_report request_finishes url_leads bs
    (.begin (.init .request) HttpRequestParser.new.sink) rfl (.inl rfl) rfl
    (finish_whole bs _ (hp.trans (Nat.zero_add _).symm)) he hdone
  have has : as ≠ [] := by
    rintro rfl
    cases hopen
  refine ⟨as, ch::rest, has, List.cons_ne_nil ch rest, rfl, ?_⟩
  have hsound := read_sound as _ (sound_begin .request _) hl
  obtain ⟨hu, hparser⟩ := @finish_url cfg _ hl hsound hopen
  have hfirst : (execute cfg (requestSettings cfg) HttpRequestParser.new.parser
      HttpRequestParser.new.sink as).1 = (Call.result ((read cfg (requestSettings cfg) as
        (.begin (.init .request) HttpRequestParser.new.sink)).finish cfg
          (requestSettings cfg))).1 := by
    rw [show HttpRequestParser.new.parser = .init .request from rfl, execute_read _ _ as rfl has]
  change ((HttpRequestParser.new.execute cfg as).1.execute cfg (ch::rest)).1.hasError = true
  rw [← hfirst] at hu hparser
  by_cases hok : (execute cfg (requestSettings cfg) HttpRequestParser.new.parser
      HttpRequestParser.new.sink as).1.httpErrno = .OK
  · have hr := request_ok HttpRequestParser.new as hok hu
    rw [hparser hok] at hr hu
    obtain ⟨herrno, hup⟩ := url_end _ p' _ ch rest hsound.settled hu hopen hbyte
    rw [hr]
    exact (request_error _ (ch::rest) (by rw [herrno]; decide) hup).1
  · obtain ⟨-, herrno, hup⟩ := request_error _ as hok hu
    have hsame := @execute_failed cfg (HttpRequestParser.new.execute cfg as).1
      (ch::rest) herrno
    rw [← hsame] at herrno hup
    exact (request_error _ (ch::rest) herrno hup).1

def Nameless (m : MapType) : Prop := ∃ kv ∈ m, folded kv.1 = []

theorem nameless_assign (key val : Bytes) (m : MapType) (hm : Nameless m) :
    Nameless (m.assign key val) := by
  obtain ⟨kv, hkv, hname⟩ := hm
  induction m with
  | nil => cases hkv
  | cons head rest ih =>
    obtain ⟨k, v⟩ := head
    simp only [MapType.assign]
    split_ifs
    · exact ⟨kv, List.mem_cons_of_mem _ hkv, hname⟩
    · rcases List.mem_cons.mp hkv with rfl | hkv
      · exact ⟨_, List.mem_cons_self, hname⟩
      · obtain ⟨kv', hkv', hname'⟩ := ih hkv
        exact ⟨kv', List.mem_cons_of_mem _ hkv', hname'⟩
    · rcases List.mem_cons.mp hkv with rfl | hkv
      · exact ⟨_, List.mem_cons_self, hname⟩
      · exact ⟨kv, List.mem_cons_of_mem _ hkv, hname⟩

theorem nameless_assign_nil (val : Bytes) (m : MapType) : Nameless (m.assign [] val) := by
  cases m with
  | nil => exact ⟨_, List.mem_cons_self, rfl⟩
  | cons head rest =>
    obtain ⟨k, v⟩ := head
    simp only [MapType.assign]
    split_ifs with hless hgreater
    · exact ⟨_, List.mem_cons_self, rfl⟩
    · exact absurd (of_decide_eq_true hgreater) (List.not_lt_nil _)
    · refine ⟨_, List.mem_cons_self, ?_⟩
      cases hk : folded k with
      | nil => rfl
      | cons c cs =>
        refine absurd ?_ hless
        simp only [caseInsensitiveLess, hk, decide_eq_true_eq]
        exact List.nil_lt_cons c cs

theorem not_nameless_assign (key val : Bytes) (m : MapType) (hm : ¬Nameless m)
    (hkey : folded key ≠ []) : ¬Nameless (m.assign key val) := by
  induction m with
  | nil =>
    rintro ⟨kv, hkv, hname⟩
    obtain rfl := List.mem_singleton.mp hkv
    exact hkey hname
  | cons head rest ih =>
    obtain ⟨k, v⟩ := head
    have hk : folded k ≠ [] := fun hk => hm ⟨_, List.mem_cons_self, hk⟩
    have hrest : ¬Nameless rest := by
      rintro ⟨kv, hkv, hname⟩
      exact hm ⟨kv, List.mem_cons_of_mem _ hkv, hname⟩
    simp only [MapType.assign]
    split_ifs
    · rintro ⟨kv, hkv, hname⟩
      rcases List.mem_cons.mp hkv with rfl | hkv
      · exact hkey hname
      · exact hm ⟨kv, hkv, hname⟩
    · rintro ⟨kv, hkv, hname⟩
      rcases List.mem_cons.mp hkv with rfl | hkv
      · exact hk hname
      · exact ih hrest ⟨kv, hkv, hname⟩
    · rintro ⟨kv, hkv, hname⟩
      rcases List.mem_cons.mp hkv with rfl | hkv
      · exact hk hname
      · exact hrest ⟨kv, hkv, hname⟩

def Phase.named : Phase → Bool
  | .preValue => true
  | .value => true
  | .postValue => true
  | _ => false

structure Named (q : Phase) (b : Buffers Token ResponseSink) : Prop where
  headers : ¬Nameless b.data.data.headers
  fresh : q = .fieldFresh → b.marks .headerField = some []
  begun : q = .field → ∃ c cs, b.marks .headerField = some (c::cs) ∧ c ≠ 0
  field : Phase.named q = true → folded b.data.field ≠ []

/-- An operation that leaves the headers and the name alone. -/
theorem Named.other {q r : Phase} {b b' : Buffers Token ResponseSink} (hb : Named q b)
    (hheaders : b'.data.data.headers = b.data.data.headers) (hfield : b'.data.field = b.data.field)
    (hfresh : r ≠ .fieldFresh) (hbegun : r ≠ .field)
    (hnamed : Phase.named r = true → Phase.named q = true) : Named r b' := by
  constructor
  · rw [hheaders]
    exact hb.headers
  · exact fun hr => absurd hr hfresh
  · exact fun hr => absurd hr hbegun
  · intro hr
    rw [hfield]
    exact hb.field (hnamed hr)

theorem named_mark (i : Info) (ch : UInt8) (t : Token) (q r : Phase)
    (b b' : Buffers Token ResponseSink) (hn : nextPhase q (.mark t) = some r) (hf : Fits q b)
    (hb : Named q b) (hr : runOp responseSettings i ch b (.mark t) = (b', none)) : Named r b' := by
  have hdata : b'.data = b.data := by
    simp only [runOp] at hr
    split at hr <;> (obtain ⟨rfl, -⟩ := Prod.mk.inj hr; rfl)
  by_cases ht : t = .headerField
  · subst ht
    have hclosed : b.marks .headerField = none ∧ r = .fieldFresh := by
      cases q <;> cases hn <;> exact ⟨hf.closed _ (by decide), rfl⟩
    obtain ⟨hnone, rfl⟩ := hclosed
    simp only [runOp, hnone] at hr
    obtain ⟨rfl, -⟩ := Prod.mk.inj hr
    exact ⟨hb.headers, fun _ => Buffers.set_self b _ _, by rintro ⟨⟩, by rintro ⟨⟩⟩
  · refine hb.other (by rw [hdata]) (by rw [hdata]) ?_ ?_ ?_ <;>
      cases q <;> cases t <;> cases hn <;> first | exact absurd rfl ht | decide

theorem named_report (i : Info) (ch : UInt8) (t : Token) (inclusive : Bool) (q r : Phase)
    (b b' : Buffers Token ResponseSink) (hn : nextPhase q (.report t inclusive) = some r)
    (hb : Named q b) (hr : runOp responseSettings i ch b (.report t inclusive) = (b', none)) :
    Named r b' := by
  cases hm : b.marks t with
  | none =>
    simp only [runOp, hm] at hr
    obtain ⟨rfl, -⟩ := Prod.mk.inj hr
    cases q <;> cases t <;> cases inclusive <;> cases hn <;>
      first
      | exact hb.other rfl rfl (by decide) (by decide) (by decide)
      | (obtain ⟨c, cs, hmark, -⟩ := hb.begun rfl
         rw [hm] at hmark
         cases hmark)
  | some bs =>
    simp only [runOp, hm] at hr
    cases t with
    | headerField =>
      have hphase : q = .field ∧ inclusive = false ∧ r = .preValue := by
        cases q <;> cases inclusive <;> cases hn
        exact ⟨rfl, rfl, rfl⟩
      obtain ⟨rfl, rfl, rfl⟩ := hphase
      obtain ⟨c, cs, hmark, hc⟩ := hb.begun rfl
      obtain rfl : bs = c::cs := Option.some.inj (hm.symm.trans hmark)
      obtain ⟨rfl, -⟩ := Prod.mk.inj hr
      refine ⟨hb.headers, by rintro ⟨⟩, by rintro ⟨⟩, fun _ => ?_⟩
      simp [folded, hc]
    | headerValue =>
      have hphase : q = .value ∧ r = .postValue := by
        cases q <;> cases inclusive <;> cases hn
        exact ⟨rfl, rfl⟩
      obtain ⟨rfl, rfl⟩ := hphase
      obtain ⟨rfl, -⟩ := Prod.mk.inj hr
      exact ⟨not_nameless_assign _ _ _ hb.headers (hb.field rfl), by rintro ⟨⟩, by rintro ⟨⟩,
        fun _ => hb.field rfl⟩
    | _ =>
      obtain ⟨rfl, -⟩ := Prod.mk.inj hr
      refine hb.other rfl rfl ?_ ?_ ?_ <;>
        cases q <;> cases inclusive <;> cases hn <;> decide

theorem named_kept : Kept responseSettings Named := by
  constructor
  · intro i ch op q r b b' hn hf hb hr
    cases op with
    | mark t => exact named_mark i ch t q r b b' hn hf hb hr
    | report t inclusive => exact named_report i ch t inclusive q r b b' hn hb hr
    | notify n =>
      obtain ⟨rfl, -⟩ := Prod.mk.inj hr
      refine hb.other ?_ ?_ ?_ ?_ ?_ <;> cases q <;> cases n <;> cases hn <;> first | rfl | decide
  · intro r q b ch hs hch hb
    cases r with
    | fieldFresh =>
      obtain rfl : q = .field := by simpa [Phase.settles] using hs
      refine ⟨hb.headers, by rintro ⟨⟩, fun _ => ⟨ch, [], ?_, hch rfl⟩, by rintro ⟨⟩⟩
      simp [Buffers.extend, hb.fresh rfl]
    | field =>
      obtain rfl : q = .field := by simpa [Phase.settles, eq_comm] using hs
      obtain ⟨c, cs, hmark, hc⟩ := hb.begun rfl
      refine ⟨hb.headers, by rintro ⟨⟩, fun _ => ⟨c, cs ++ [ch], ?_, hc⟩, by rintro ⟨⟩⟩
      simp [Buffers.extend, hmark]
    | _ =>
      refine hb.other rfl rfl ?_ ?_ ?_ <;> cases q <;> first | decide | exact absurd hs (by decide)

def Lost (q : Phase) (b : Buffers Token ResponseSink) : Prop :=
  Nameless b.data.data.headers ∨
    ((q = .preValue ∨ q = .value) ∧ b.data.field = [] ∧ b.data.finished = false)

theorem headers_op (i : Info) (ch : UInt8) (op : Op) (b : Buffers Token ResponseSink) :
    (runOp responseSettings i ch b op).1.data.data.headers = b.data.data.headers ∨
      ∃ v, (runOp responseSettings i ch b op).1.data.data.headers =
        b.data.data.headers.assign b.data.field v := by
  cases op with
  | mark t =>
    simp only [runOp]
    split <;> exact .inl rfl
  | report t inclusive =>
    cases hm : b.marks t with
    | none =>
      left
      simp only [runOp, hm]
    | some bs =>
      simp only [runOp, hm]
      cases t <;> first | exact .inl rfl | exact .inr ⟨_, rfl⟩
  | notify n => cases n <;> exact .inl rfl

theorem lost_kept : Kept responseSettings Lost := by
  constructor
  · intro i ch op q r b b' hn hf hb hr
    rcases hb with hb | ⟨hq, hfield, hfin⟩
    · left
      rcases headers_op i ch op b with hsame | ⟨v, hassign⟩
      · rw [hr] at hsame
        rw [hsame]
        exact hb
      · rw [hr] at hassign
        rw [hassign]
        exact nameless_assign _ v _ hb
    · rcases hq with rfl | rfl
      · -- only the mark of the value is possible here
        cases op with
        | mark t =>
          have hdata : b'.data = b.data := by
            simp only [runOp] at hr
            split at hr <;> (obtain ⟨rfl, -⟩ := Prod.mk.inj hr; rfl)
          cases t <;> cases hn
          right
          rw [hdata]
          exact ⟨.inr rfl, hfield, hfin⟩
        | report t inclusive => cases t <;> cases inclusive <;> cases hn
        | notify n => cases n <;> cases hn
      · -- only the report of the value is possible here
        cases op with
        | mark t => cases t <;> cases hn
        | notify n => cases n <;> cases hn
        | report t inclusive =>
          have ht : t = .headerValue := by
            cases t <;> cases inclusive <;> cases hn
            rfl
          subst ht
          cases hm : b.marks .headerValue with
          | none => exact absurd hm (hf.opened _ rfl (by decide))
          | some bs =>
            simp only [runOp, hm] at hr
            obtain ⟨rfl, -⟩ := Prod.mk.inj hr
            left
            change Nameless (b.data.data.headers.assign b.data.field _)
            rw [hfield]
            exact nameless_assign_nil _ _
  · intro r q b ch hs _ hb
    rcases hb with hb | ⟨hr, hfield, hfin⟩
    · exact .inl hb
    · refine .inr ⟨?_, hfield, hfin⟩
      rcases hr with rfl | rfl
      · exact .inl (by simpa [Phase.settles, eq_comm] using hs)
      · exact .inr (by simpa [Phase.settles, eq_comm] using hs)

theorem field_colon (p p' : HttpMachine.HttpParser) (ch : UInt8) (hs : p.state = .headerField)
    (hb : byte cfg p ch = .go p' [.report .headerField false]) :
    token cfg ch = 0 ∧ ch = (':' : Char) := by
  rcases byte_reexecute cfg p ch with ⟨q, -, hq⟩ | ⟨n, hq⟩
  · rw [hq] at hb
    cases hb
  · rw [hq] at hb
    simp only [reexecute, hs, headerField] at hb
    by_cases htoken : token cfg ch = 0
    · rw [if_pos htoken] at hb
      simp only [countHeaderSize] at hb
      split_ifs at hb with hover hcolon
      · cases hb
      · exact ⟨htoken, hcolon⟩
      · cases hb
    · rw [if_neg htoken] at hb
      cases (Outcome.go.inj hb).2

theorem field_end (p : HttpMachine.HttpParser) (ch : UInt8) (hs : p.state = .headerField)
    (hch : token cfg ch = 0 ∧ ch = (':' : Char)) :
    (∃ p', byte cfg p ch = .go p' [.report .headerField false] ∧
      p'.state = .headerValueDiscardWs) ∨
    ∃ p', byte cfg p ch = .error .HEADER_OVERFLOW p' [] := by
  obtain ⟨htoken, hcolon⟩ := hch
  rcases byte_reexecute cfg p ch with ⟨q, -, hq⟩ | ⟨n, hq⟩
  · exact .inr ⟨q, hq⟩
  · rw [hq]
    simp only [reexecute, hs, headerField]
    rw [if_pos htoken]
    simp only [countHeaderSize]
    split_ifs
    · exact .inr ⟨_, rfl⟩
    · exact .inl ⟨_, rfl, rfl⟩

/-- A call that begins with the byte after a header field loses the name. -/
theorem field_lost (p : HttpMachine.HttpParser) (d : ResponseSink) (ch : UInt8) (rest : Bytes)
    (hp : Calm p) (hs : p.state = .headerField) (hch : token cfg ch = 0 ∧ ch = (':' : Char))
    (hf : d.finished = false)
    (he : (resume cfg responseSettings (p, d) (ch::rest)).1.httpErrno = .OK) :
    Nameless (resume cfg responseSettings (p, d) (ch::rest)).2.data.headers ∨
      (resume cfg responseSettings (p, d) (ch::rest)).2.finished = false := by
  have hsound : Sound (Call.begin p d).parser (Call.begin p d).buffers := by
    refine ⟨.inl hp, fits_openMarks _ _, fun hearly => ?_⟩
    change Phase.early (phase p.state) = true at hearly
    rw [hs] at hearly
    cases hearly
  have hresume : resume cfg responseSettings (p, d) (ch::rest) = Call.result
      ((read cfg responseSettings rest ((Call.begin p d).step cfg responseSettings ch)).finish cfg
        responseSettings) := by
    simp only [resume, execute_read p d (ch::rest) hp.2.2 (List.cons_ne_nil ch rest)]
    rfl
  rw [hresume] at he ⊢
  rcases field_end p ch hs hch with ⟨p', hbyte, hstate⟩ | ⟨p', hbyte⟩
  · have hstep : ∃ b, (Call.begin p d).step cfg responseSettings ch = ⟨p', b, true, 1⟩ ∧
        b.data = { d with field := [] } := by
      simp only [Call.step, Call.begin, Bool.not_true, Bool.false_eq_true, if_false, hbyte, runOps,
        runOp, openMarks, hs, reopen, Buffers.set_self]
      exact ⟨_, rfl, rfl⟩
    obtain ⟨b, hstep, hdata⟩ := hstep
    have hsound' := sound_step (Call.begin p d) ch hsound (by rw [hstep])
    rw [hstep] at he hsound' ⊢
    obtain ⟨r, hlost⟩ := lost_kept.call rest _ hsound' rfl
      (.inr ⟨.inl (by rw [hstate]; rfl), by rw [hdata], by rw [hdata]; exact hf⟩) he
    rcases hlost with hlost | ⟨-, -, hlost⟩
    · exact .inl hlost
    · exact .inr hlost
  · exfalso
    have hstep : (Call.begin p d).step cfg responseSettings ch =
        ⟨{ p' with httpErrno := .HEADER_OVERFLOW }, openMarks p.state d, false, 0⟩ := by
      simp only [Call.step, Call.begin, Bool.not_true, Bool.false_eq_true, if_false, hbyte, runOps]
    rw [hstep, read_dead rest _ rfl] at he
    cases he

/-- One response and nothing behind it: it is finished with its last byte. -/
structure CompleteResponse (cfg : Config) (bs : Bytes) : Prop where
  accepts : AcceptsResponse cfg bs
  finished : (HttpResponseParser.new.execute cfg bs).1.sink.finished = true
  unfinished : ∀ i < bs.length,
    (HttpResponseParser.new.execute cfg (bs.take i)).1.sink.finished = false

theorem response_sink (bs : Bytes) (hbs : bs ≠ []) :
    (HttpResponseParser.new.execute cfg bs).1.sink =
      ((read cfg responseSettings bs (.begin (.init .response)
        HttpResponseParser.new.sink)).finish cfg responseSettings).buffers.data := by
  rw [response_execute]
  change (execute cfg responseSettings (.init .response) HttpResponseParser.new.sink bs).2.1 = _
  rw [execute_read _ _ bs rfl hbs]
  rfl

theorem finish_field (m : Call ResponseSink) (hl : m.live = true)
    (hs : Sound m.parser m.buffers) (hstate : m.parser.state = .headerField)
    (he : (m.finish cfg responseSettings).parser.httpErrno = .OK) :
    Calm (Call.result (m.finish cfg responseSettings)).1 ∧
      (Call.result (m.finish cfg responseSettings)).1.state = .headerField := by
  rcases @finish_live _ cfg responseSettings m hl with ⟨hover, -⟩ | ⟨n, b, failed, -, hfin⟩
  · exact absurd (hover.symm.trans he) (by decide)
  · cases failed with
    | none =>
      rw [hfin]
      exact ⟨⟨rfl, rfl, hs.settled.errno⟩, hstate⟩
    | some t =>
      rw [hfin] at he
      exact absurd he (callbackErrno_ne t)

theorem reopen_field (s : State) (hs : reopen s = some .headerField) : s = .headerField := by
  cases s <;> first | rfl | cases hs

theorem find_field_end (bs : Bytes) (hc : CompleteResponse cfg bs) (i : ℕ) (hi : i < bs.length)
    (hstate : (scan cfg (.init .response) (bs.take i)).state = .headerField) :
    ∃ as ch rest p, bs = as ++ ch::rest ∧
      (read cfg responseSettings as (.begin (.init .response)
        HttpResponseParser.new.sink)).live = true ∧
      (read cfg responseSettings as (.begin (.init .response)
        HttpResponseParser.new.sink)).parser.state = .headerField ∧
      byte cfg (read cfg responseSettings as (.begin (.init .response)
        HttpResponseParser.new.sink)).parser ch = .go p [.report .headerField false] := by
  obtain ⟨hp, he⟩ := hc.accepts.errno
  have hbs : bs ≠ [] := List.ne_nil_of_length_pos (by omega)
  have hdone := hc.finished
  rw [response_sink bs hbs] at hdone
  rw [execute_read _ _ bs rfl hbs] at hp he
  have hread := finish_whole bs _ (hp.trans (Nat.zero_add _).symm)
  have hfirst : bs.take i ≠ [] := by
    intro hnil
    rw [hnil] at hstate
    cases hstate
  have hrest : bs.drop i ≠ [] := by
    rw [ne_eq, List.drop_eq_nil_iff]
    omega
  have hsplit := List.take_append_drop i bs
  obtain ⟨hl, hparsed⟩ := read_before (bs.take i) (bs.drop i) _ hrest (by rw [hsplit]; exact hread)
  have hunfinished := hc.unfinished i hi
  rw [response_sink _ hfirst, response_finishes.finish] at hunfinished
  have hmid := read_scan (bs.take i) _ hl
  rw [← hsplit, read_append] at hread he hdone
  obtain ⟨as, ch, rest, p, hdrop, hlive, hopen, hbyte⟩ := find_report response_finishes field_leads
    (bs.drop i) _ hl (by rw [hmid]; exact hstate) hunfinished
    (by rw [hread, hparsed, List.length_append]; omega) he hdone
  rw [← read_append] at hlive hopen hbyte
  refine ⟨bs.take i ++ as, ch, rest, p, ?_, hlive, ?_, hbyte⟩
  · rw [List.append_assoc, ← hdrop, hsplit]
  · exact reopen_field _ hopen

/-- The headers of a response that one call reads have names. -/
theorem response_named (bs : Bytes) (ha : AcceptsResponse cfg bs) :
    ¬Nameless (HttpResponseParser.new.execute cfg bs).1.sink.data.headers := by
  by_cases hbs : bs = []
  · subst hbs
    rintro ⟨kv, hkv, -⟩
    cases hkv
  · have he := ha.errno.2
    rw [execute_read _ _ bs rfl hbs] at he
    rw [response_sink bs hbs]
    obtain ⟨r, hnamed⟩ := named_kept.call bs _ (sound_begin .response _) rfl
      ⟨(by rintro ⟨kv, hkv, -⟩; cases hkv), by rintro ⟨⟩, by rintro ⟨⟩, by rintro ⟨⟩⟩ he
    exact hnamed.headers

theorem resume_errno {σ : Type} {h : Settings σ} (s : HttpMachine.HttpParser × σ) (c : Bytes)
    (he : (resume cfg h s c).1.httpErrno = .OK) : s.1.httpErrno = .OK := by
  by_contra hfailed
  have hsame : resume cfg h s c = s := resume_failed s [c] hfailed
  rw [hsame] at he
  exact hfailed he

/-- A response parser has no error when the machine has none. -/
theorem response_errno (r : HttpResponseParser) (c : Bytes)
    (he : (r.execute cfg c).1.hasError = false) :
    (resume cfg responseSettings (r.parser, r.sink) c).1.httpErrno = .OK := by
  by_contra hfailed
  rw [response_execute, if_neg hfailed] at he
  simp only [HttpResponseParser.hasError, ne_eq, decide_eq_false_iff_not, not_not] at he
  exact hfailed he

theorem responseView_parts {r r' : HttpResponseParser} (h : responseView r = responseView r') :
    r.hasError = r'.hasError ∧ r.sink.finished = r'.sink.finished ∧
      r.sink.data.headers = r'.sink.data.headers :=
  ⟨congrArg ResponseView.hasError h, congrArg ResponseView.isFinished h,
    congrArg ResponseView.headers h⟩

/-- A response with a header is not the same when it is cut behind a header field. -/
theorem response_field_cut (bs : Bytes) (hc : CompleteResponse cfg bs) (i : ℕ)
    (hi : i < bs.length) (hstate : (scan cfg (.init .response) (bs.take i)).state = .headerField) :
    ∃ as bs', as ≠ [] ∧ bs' ≠ [] ∧ as ++ bs' = bs ∧
      responseView (feedResponse cfg .new [as, bs']) ≠
        responseView (feedResponse cfg .new [bs]) := by
  obtain ⟨as, ch, rest, p, rfl, hlive, hfield, hbyte⟩ := find_field_end bs hc i hi hstate
  have has : as ≠ [] := by
    rintro rfl
    cases hfield
  refine ⟨as, ch::rest, has, List.cons_ne_nil ch rest, rfl, ?_⟩
  intro hview
  change responseView ((HttpResponseParser.new.execute cfg as).1.execute cfg (ch::rest)).1 =
    responseView (HttpResponseParser.new.execute cfg (as ++ ch::rest)).1 at hview
  obtain ⟨hsameError, hsameEnd, hsameHeaders⟩ := responseView_parts hview
  have herror := hsameError.trans hc.accepts.1
  have hfinished := hsameEnd.trans hc.finished
  have hnamed := response_named _ hc.accepts
  rw [← hsameHeaders] at hnamed
  have hfirst : (HttpResponseParser.new.execute cfg as).1.sink.finished = false := by
    have hunfinished := hc.unfinished as.length (by simp)
    rw [List.take_left] at hunfinished
    exact hunfinished
  have hsecond := response_errno _ (ch::rest) herror
  have herrno : (HttpResponseParser.new.execute cfg as).1.parser.httpErrno = .OK :=
    resume_errno _ (ch::rest) hsecond
  have hparser : (HttpResponseParser.new.execute cfg as).1.parser = (Call.result ((read cfg
      responseSettings as (.begin (.init .response) HttpResponseParser.new.sink)).finish cfg
        responseSettings)).1 := by
    rw [response_execute]
    change (execute cfg responseSettings (.init .response) HttpResponseParser.new.sink as).1 = _
    rw [execute_read _ _ as rfl has]
  have hsound := read_sound as _ (sound_begin .response _) hlive
  rw [hparser] at herrno
  obtain ⟨hcalm, hstate'⟩ := finish_field _ hlive hsound hfield herrno
  rw [← hparser] at hcalm hstate'
  have hcolon := field_colon _ p ch hfield hbyte
  have hlost := field_lost _ _ ch rest hcalm hstate' hcolon hfirst hsecond
  rw [response_execute] at hnamed hfinished
  rcases hlost with hlost | hlost
  · exact hnamed hlost
  · exact absurd (hlost.symm.trans hfinished) (by decide)

def Phase.header : Phase → Bool
  | .fieldFresh => true
  | .field => true
  | .preValue => true
  | .value => true
  | .postValue => true
  | _ => false

theorem header_trace (ops : List Op) (q r : Phase) (h : trace nextPhase ops q = some r)
    (hq : Phase.header q = false) : Phase.header r = false ∨ r = .fieldFresh := by
  induction ops generalizing q with
  | nil =>
    obtain rfl : q = r := Option.some.inj h
    exact .inl hq
  | cons op ops ih =>
    obtain ⟨s, hs, hrest⟩ := Option.bind_eq_some_iff.mp h
    have hnext : Phase.header s = false ∨ s = .fieldFresh := by
      unfold nextPhase at hs
      split at hs <;> cases hs <;>
        first | exact .inl rfl | exact .inr rfl | exact absurd hq (by decide)
    rcases hnext with hs' | rfl
    · exact ih s hrest hs'
    · cases ops with
      | nil => exact .inr (Option.some.inj hrest).symm
      | cons op' ops =>
        obtain ⟨s', hs', -⟩ := Option.bind_eq_some_iff.mp hrest
        cases op' <;> cases hs'

theorem header_settles (r q : Phase) (hs : r.settles q = true)
    (hr : Phase.header r = false ∨ r = .fieldFresh) : Phase.header q = false ∨ q = .field := by
  rcases hr with hr | rfl
  · left
    cases r <;> cases q <;>
      first | rfl | exact absurd hs (by decide) | exact absurd hr (by decide)
  · exact .inr (by simpa [Phase.settles] using hs)

theorem phase_field (s : State) (hs : phase s = .field) : s = .headerField := by
  cases s <;> first | rfl | cases hs

/-- A call that is inside of a header was inside of its field before. -/
theorem first_field {σ : Type} {h : Settings σ} (bs : Bytes) (m : Call σ)
    (hs : Sound m.parser m.buffers) (hl : (read cfg h bs m).live = true)
    (hq : Phase.header (phase m.parser.state) = false)
    (hhead : Phase.header (phase (read cfg h bs m).parser.state) = true) :
    ∃ j ≤ bs.length, (read cfg h (bs.take j) m).live = true ∧
      (read cfg h (bs.take j) m).parser.state = .headerField := by
  induction bs generalizing m with
  | nil => exact absurd (hq.symm.trans hhead) (by decide)
  | cons ch bs ih =>
    have hlive := read_cons_live ch bs m hl
    have hsound := sound_step m ch hs hlive
    obtain ⟨-, p, ops, b, hbyte, -, hstep⟩ := step_live m ch hlive
    have hord := byte_ordered cfg m.parser ch hs.settled
    rw [hbyte] at hord
    obtain ⟨r, htrace, hsettles⟩ := hord.1.traced
    rcases header_settles r _ hsettles (header_trace ops _ r htrace hq) with hnext | hnext
    · obtain ⟨j, hj, hlive', hstate⟩ := ih (m.step cfg h ch) hsound hl
        (by rw [hstep]; exact hnext) hhead
      exact ⟨j+1, Nat.succ_le_succ hj, hlive', hstate⟩
    · refine ⟨1, by simp, hlive, ?_⟩
      change (m.step cfg h ch).parser.state = .headerField
      rw [hstep]
      exact phase_field _ hnext

theorem cutsToken_header (s : State) (hs : cutsToken .response s = true) :
    Phase.header (phase s) = true := by
  cases s <;> first | rfl | exact absurd hs (by decide)

/-- No call but the last one ends in a token whose callback keeps the last piece. -/
def CutBetween (cfg : Config) (type : ParserType) (chunks : List Bytes) : Prop :=
  ∀ i, 0 < i → i < chunks.length →
    cutsToken type (scan cfg (.init type) (chunks.take i).flatten).state = false

/-- However the bytes of a request are cut, its parser shows the same. -/
def RequestIndependent (cfg : Config) (bs : Bytes) : Prop :=
  ∀ chunks : List Bytes, (∀ c ∈ chunks, c ≠ []) → chunks.flatten = bs →
    requestView (feedRequest cfg .new chunks) = requestView (feedRequest cfg .new [bs])

def ResponseIndependent (cfg : Config) (bs : Bytes) : Prop :=
  ∀ chunks : List Bytes, (∀ c ∈ chunks, c ≠ []) → chunks.flatten = bs →
    responseView (feedResponse cfg .new chunks) = responseView (feedResponse cfg .new [bs])

theorem request_cutBetween (chunks : List Bytes) (hne : ∀ c ∈ chunks, c ≠ [])
    (ha : AcceptsRequest cfg chunks.flatten) (hcut : CutBetween cfg .request chunks) :
    requestView (feedRequest cfg .new chunks) =
      requestView (feedRequest cfg .new [chunks.flatten]) := by
  have hchunks := request_cut chunks hne ha hcut
  have hone := matches_feed [chunks.flatten] .new _ matches_new ha.errno.2
  exact requestView_eq _ _ _ hchunks hone

theorem request_dependent (bs : Bytes) (ha : AcceptsRequest cfg bs)
    (hf : (HttpRequestParser.new.execute cfg bs).1.sink.finished = true) :
    ¬RequestIndependent cfg bs := by
  intro hindep
  obtain ⟨as, bs', has, hbs', happend, herror⟩ := request_url_cut bs ha hf
  have hview := hindep [as, bs'] (by simp [has, hbs']) (by simpa using happend)
  have hsame := (congrArg RequestView.hasError hview).trans ha.1
  exact absurd (herror.symm.trans hsame) (by decide)

/-- Between its bytes a response is never inside of a header when it has none. -/
theorem response_independent_iff (bs : Bytes) (hc : CompleteResponse cfg bs) :
    ResponseIndependent cfg bs ↔ ∀ i < bs.length,
      cutsToken .response (scan cfg (.init .response) (bs.take i)).state = false := by
  constructor
  · intro hindep i hi
    by_contra hcuts
    have hhead := cutsToken_header _ (Bool.eq_true_of_not_eq_false hcuts)
    obtain ⟨hp, -⟩ := hc.accepts.errno
    rw [execute_read _ _ bs rfl (List.ne_nil_of_length_pos (by omega))] at hp
    have hread := finish_whole bs _ (hp.trans (Nat.zero_add _).symm)
    have hl := (read_before (bs.take i) (bs.drop i) _ (by rw [ne_eq, List.drop_eq_nil_iff]; omega)
      (by rw [List.take_append_drop]; exact hread)).1
    have hscan := read_scan (bs.take i) _ hl
    obtain ⟨j, hj, hlive, hstate⟩ := first_field (bs.take i) _ (sound_begin .response _) hl rfl
      (by rw [hscan]; exact hhead)
    rw [read_scan _ _ hlive, List.take_take] at hstate
    obtain ⟨as, bs', has, hbs', happend, hne⟩ := response_field_cut bs hc (min j i)
      (lt_of_le_of_lt (Nat.min_le_right j i) hi) hstate
    exact hne (hindep [as, bs'] (by simp [has, hbs']) (by simpa using happend))
  · rintro hsafe chunks hne rfl
    have hcut := response_cut chunks hne hc.accepts ?_
    · rw [hcut]
    · intro i _ hlt
      obtain ⟨rest, hrest, hsplit⟩ := take_flatten hne hlt
      have hpos := List.length_pos_iff.mpr hrest
      have hlen : (chunks.take i).flatten.length < chunks.flatten.length := by
        rw [← hsplit, List.length_append]
        omega
      have hpre := hsafe _ hlen
      rw [← hsplit, List.take_left] at hpre
      exact hpre

/-- Requests and responses may be cut between their tokens. Cut behind its URL, every
request fails; a response does not depend on the cuts exactly when it has no header. -/
theorem segmentation (cfg : Config) :
    (∀ chunks : List Bytes, (∀ c ∈ chunks, c ≠ []) → AcceptsRequest cfg chunks.flatten →
      CutBetween cfg .request chunks →
      requestView (feedRequest cfg .new chunks) =
        requestView (feedRequest cfg .new [chunks.flatten])) ∧
    (∀ chunks : List Bytes, (∀ c ∈ chunks, c ≠ []) → AcceptsResponse cfg chunks.flatten →
      CutBetween cfg .response chunks →
      responseView (feedResponse cfg .new chunks) =
        responseView (feedResponse cfg .new [chunks.flatten])) ∧
    (∀ bs : Bytes, AcceptsRequest cfg bs →
      (HttpRequestParser.new.execute cfg bs).1.sink.finished = true →
      ¬RequestIndependent cfg bs) ∧
    (∀ bs : Bytes, CompleteResponse cfg bs → (ResponseIndependent cfg bs ↔ ∀ i < bs.length,
        cutsToken .response (scan cfg (.init .response) (bs.take i)).state = false)) := by
  refine ⟨request_cutBetween, ?_, request_dependent, response_independent_iff⟩
  intro chunks hne ha hcut
  rw [response_cut chunks hne ha hcut]

/-- A body in two pieces, the same request cut elsewhere, and a response without
headers. -/
theorem segmentation_post :
    requestView (feedRequest Config.standard .new
        [ascii "POST /a HTTP/1.1\r\nContent-Length: 4\r\n\r\nbo", ascii "dy"]) =
      requestView (feedRequest Config.standard .new
        [ascii "POST /a HTTP/1.1\r\nContent-Length: 4\r\n\r\nbody"]) ∧
    ¬RequestIndependent Config.standard
      (ascii "POST /a HTTP/1.1\r\nContent-Length: 4\r\n\r\nbody") ∧
    ResponseIndependent Config.standard (ascii "HTTP/1.1 204 No Content\r\n\r\n") := by
  obtain ⟨hrequest, -, hdependent, hresponse⟩ := segmentation Config.standard
  refine ⟨?_, hdependent _ (by decide +kernel) (by decide +kernel), ?_⟩
  · refine hrequest [ascii "POST /a HTTP/1.1\r\nContent-Length: 4\r\n\r\nbo", ascii "dy"]
      (by decide +kernel) (by decide +kernel) ?_
    intro i hpos hlt
    obtain rfl : i = 1 := by
      simp only [List.length_cons, List.length_nil] at hlt
      omega
    decide +kernel
  · refine (hresponse _ ⟨by decide +kernel, by decide +kernel, by decide +kernel⟩).mpr ?_
    decide +kernel

/-- A request cut inside of the name of its header. -/
theorem request_cut_in_field :
    AcceptsRequest Config.standard (ascii "GET / HTTP/1.1\r\nHost: a\r\n\r\n") ∧
    (HttpRequestParser.new.execute Config.standard
      (ascii "GET / HTTP/1.1\r\nHost: a\r\n\r\n")).1.sink.finished = true ∧
    (feedRequest Config.standard .new
      [ascii "GET / HTTP/1.1\r\nHost: a\r\n\r\n"]).sink.data.headers =
        [(ascii "Host", ascii "a")] ∧
    (feedRequest Config.standard .new
      [ascii "GET / HTTP/1.1\r\nHo", ascii "st: a\r\n\r\n"]).sink.data.headers =
        [(ascii "st", ascii "a")] ∧
    ¬RequestIndependent Config.standard (ascii "GET / HTTP/1.1\r\nHost: a\r\n\r\n") := by
  refine ⟨by decide +kernel, by decide +kernel, by decide +kernel, by decide +kernel, ?_⟩
  intro hindep
  have hview := hindep [ascii "GET / HTTP/1.1\r\nHo", ascii "st: a\r\n\r\n"] (by decide +kernel)
    (by decide +kernel)
  exact absurd hview (by decide +kernel)

end

end Lamb.HttpTokenCuts
