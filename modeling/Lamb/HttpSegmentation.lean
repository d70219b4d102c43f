import Lamb.HttpCalls

/-!
# Cutting a message into several execute calls

A request or a response is handed to its parser in one call or in several. Body and
status text may be cut anywhere: their callbacks append, or read the status code
only. The callbacks for a URL, a header field and a header value keep the last piece
they are given, and the token that a call ends in, even at its last byte, is reported
once more by the next call.
-/

set_option autoImplicit false

namespace Lamb.HttpSegmentation
open Lamb.ByteString Lamb.Http Lamb.HttpUrl Lamb.HttpMachine Lamb.HttpParser Lamb.HttpTrace
open Lamb.HttpCalls Lamb.Tokens

def Outcome.parser : Outcome → HttpMachine.HttpParser
  | .go p _ => p
  | .leave p _ => p
  | .error _ p _ => p

section
variable {σ : Type} {cfg : Config} {h : Settings σ} {f : σ → σ}

def Call.mapData (f : σ → σ) (m : Call σ) : Call σ := { m with buffers := m.buffers.mapData f }

theorem step_mapData (hf : Unnoticed h f) (m : Call σ) (ch : UInt8) :
    (Call.mapData f m).step cfg h ch = Call.mapData f (m.step cfg h ch) := by
  cases hl : m.live with
  | false =>
    rw [step_dead m ch hl]
    exact step_dead (Call.mapData f m) ch hl
  | true =>
    have hl' : (Call.mapData f m).live = true := hl
    simp only [Call.step, hl, hl', Bool.not_true, Bool.false_eq_true, if_false]
    rw [show (Call.mapData f m).parser = m.parser from rfl]
    cases byte cfg m.parser ch with
    | go p ops =>
      simp only [Call.mapData, runOps_mapData hf]
      cases runOps h (info p) ch ops m.buffers with
      | mk b failed => cases failed <;> rfl
    | leave p ops =>
      simp only [Call.mapData, runOps_mapData hf]
      cases runOps h (info p) ch ops m.buffers with
      | mk b failed => cases failed <;> rfl
    | error e p ops =>
      simp only [Call.mapData, runOps_mapData hf]
      cases runOps h (info p) ch ops m.buffers with
      | mk b failed => cases failed <;> rfl

theorem read_mapData (hf : Unnoticed h f) (bs : Bytes) (m : Call σ) :
    read cfg h bs (Call.mapData f m) = Call.mapData f (read cfg h bs m) := by
  induction bs generalizing m with
  | nil => rfl
  | cons ch bs ih =>
    calc read cfg h (ch::bs) (Call.mapData f m)
        = read cfg h bs ((Call.mapData f m).step cfg h ch) := rfl
      _ = read cfg h bs (Call.mapData f (m.step cfg h ch)) := by rw [step_mapData hf]
      _ = Call.mapData f (read cfg h (ch::bs) m) := ih _

theorem finish_mapData (hf : Unnoticed h f) (m : Call σ) :
    (Call.mapData f m).finish cfg h = Call.mapData f (m.finish cfg h) := by
  have hflush : ∀ i, flush h i flushOrder (m.buffers.mapData f) =
      ((flush h i flushOrder m.buffers).1.mapData f, (flush h i flushOrder m.buffers).2) :=
    fun i => runOps_mapData hf i 0 _ m.buffers
  cases hl : m.live with
  | false => simp only [Call.finish, Call.mapData, hl, Bool.not_false, if_true]
  | true =>
    simp only [Call.finish, Call.mapData, hl, Bool.not_true, Bool.false_eq_true, if_false, hflush]
    by_cases hover : m.parser.segment ≠ 0 ∧
        cfg.maxHeaderSize < (m.parser.nread+(m.parser.segment-1)) % 2^32
    · simp only [hover, and_self, if_true, ne_eq, not_false_eq_true]
    · simp only [hover, if_false]
      cases flush h (info (if m.parser.segment = 0 then m.parser else
        { m.parser with nread := (m.parser.nread+(m.parser.segment-1)) % 2^32 })) flushOrder
          m.buffers with
      | mk b failed => cases failed <;> rfl

theorem openMarks_mapData (s : State) (d : σ) :
    openMarks s (f d) = (openMarks s d).mapData f := by
  unfold openMarks
  cases reopen s <;> rfl

/-- A change of the data that the callbacks do not notice commutes with a call. -/
theorem execute_mapData (hf : Unnoticed h f) (p : HttpMachine.HttpParser) (d : σ) (bs : Bytes) :
    execute cfg h p (f d) bs =
      ((execute cfg h p d bs).1, f (execute cfg h p d bs).2.1, (execute cfg h p d bs).2.2) := by
  by_cases he : p.httpErrno = .OK
  · by_cases hbs : bs = []
    · simp only [execute, he, ne_eq, not_true_eq_false, if_false, hbs, if_true, hf.event]
      split <;> rfl
    · have hbegin : Call.begin p (f d) = Call.mapData f (Call.begin p d) := by
        simp only [Call.begin, Call.mapData, openMarks_mapData]
      rw [execute_read p _ bs he hbs, execute_read p d bs he hbs, hbegin, read_mapData hf,
        finish_mapData hf]
      rfl
  · simp only [execute, ne_eq, he, not_false_eq_true, if_true]

theorem resume_failed (s : HttpMachine.HttpParser × σ) (chunks : List Bytes)
    (he : s.1.httpErrno ≠ .OK) : chunks.foldl (resume cfg h) s = s := by
  induction chunks with
  | nil => rfl
  | cons c rest ih =>
    have hc : resume cfg h s c = s := by
      simp only [resume, execute, ne_eq, he, not_false_eq_true, if_true]
    rw [List.foldl_cons, hc, ih]

/-- The end of a call: the header is too long, or the open token is reported. -/
theorem finish_live (m : Call σ) (hm : m.live = true) :
    ((m.finish cfg h).parser.httpErrno = .HEADER_OVERFLOW ∧
      (m.finish cfg h).parsed = m.parsed-1 ∧ (m.finish cfg h).buffers = m.buffers) ∨
    ∃ n b failed, flush h (info m.parser) flushOrder m.buffers = (b, failed) ∧
      m.finish cfg h = match failed with
        | none => { m with parser := { m.parser with nread := n }, buffers := b }
        | some t => m.callbackFailed { m.parser with nread := n } b t m.parsed := by
  have hinfo : ∀ n, info { m.parser with nread := n } = info m.parser := fun _ => rfl
  simp only [Call.finish, hm, Bool.not_true, Bool.false_eq_true, if_false]
  cases hr : flush h (info m.parser) flushOrder m.buffers with
  | mk b failed =>
    split_ifs with hover hzero
    · exact .inl ⟨rfl, rfl, rfl⟩
    · refine .inr ⟨m.parser.nread, b, failed, rfl, ?_⟩
      rw [hr]
      cases failed <;> rfl
    · refine .inr ⟨(m.parser.nread+(m.parser.segment-1)) % 2^32, b, failed, rfl, ?_⟩
      rw [hinfo, hr]
      cases failed <;> rfl

theorem finish_parsed (m : Call σ) : (m.finish cfg h).parsed ≤ m.parsed := by
  simp only [Call.finish]
  split_ifs
  · exact le_refl _
  · exact Nat.sub_le _ _
  · split <;> exact le_refl _
  · split <;> exact le_refl _

theorem finish_whole (bs : Bytes) (m : Call σ)
    (hp : ((read cfg h bs m).finish cfg h).parsed = m.parsed+bs.length) :
    (read cfg h bs m).parsed = m.parsed+bs.length := by
  have hread : (read cfg h bs m).parsed ≤ _ := read_parsed bs m
  have hfinish := @finish_parsed σ cfg h (read cfg h bs m)
  omega

/-- The machine alone, without the callbacks. -/
def scan (cfg : Config) (p : HttpMachine.HttpParser) (bs : Bytes) : HttpMachine.HttpParser :=
  bs.foldl (fun p ch => Outcome.parser (byte cfg p ch)) p

theorem read_scan (bs : Bytes) (m : Call σ) (hl : (read cfg h bs m).live = true) :
    (read cfg h bs m).parser = scan cfg m.parser bs := by
  induction bs generalizing m with
  | nil => rfl
  | cons ch bs ih =>
    obtain ⟨-, p, ops, b, hbyte, -, hstep⟩ := step_live m ch (read_cons_live ch bs m hl)
    have hp : (m.step cfg h ch).parser = Outcome.parser (byte cfg m.parser ch) := by
      rw [hstep, hbyte]
      rfl
    calc (read cfg h bs (m.step cfg h ch)).parser = scan cfg (m.step cfg h ch).parser bs := ih _ hl
      _ = scan cfg m.parser (ch::bs) := by rw [hp]; rfl

def cutsToken (type : ParserType) (s : State) : Bool :=
  match reopen s with
  | some .url => type = .request
  | some .headerField => true
  | some .headerValue => true
  | _ => false

def Spare (type : ParserType) (t : Token) : Prop :=
  t = .status ∨ t = .body ∨ (t = .url ∧ type = .response)

theorem spare_home (type : ParserType) (s : State) (hs : cutsToken type s = false) (t : Token)
    (ht : home (phase s) = some t) : Spare type t := by
  rcases reopen_home s with hr | hr
  · rw [ht] at hr
    simp only [cutsToken, hr] at hs
    cases t with
    | status => exact .inl rfl
    | body => exact .inr (.inl rfl)
    | url =>
      cases type with
      | request => cases hs
      | response => exact .inr (.inr ⟨rfl, rfl⟩)
    | _ => cases hs
  · rw [hr] at ht
    exact .inr (.inl (Option.some.inj ht).symm)

/-- The invariant at the start of a call on a parser between two messages. -/
theorem sound_begin (t : ParserType) (d : σ) :
    Sound (Call.begin (.init t) d).parser (Call.begin (.init t) d).buffers := by
  refine ⟨.inl ⟨rfl, rfl, rfl⟩, fits_openMarks _ _, fun _ => rfl⟩

theorem sim_begin (D : Token → Prop) (t : ParserType) (d : σ) :
    Sim h D (.begin (.init t) d) (.begin (.init t) d) :=
  ⟨rfl, rfl, rfl, sound_begin t d, sound_begin t d, .inl rfl⟩

/-- A callback that fails in the middle of a call is the URL callback, before the
headers, where no upgrade is known of. -/
theorem failed_fresh (honly : ∀ t i bs d, h.token t i bs d = none → t = .url)
    {b b' : Buffers Token σ} {p p' : HttpMachine.HttpParser} {ops : List Op} {ch : UInt8}
    {t : Token} (hs : Sound p b)
    (hstep : Step (phase p.state) p.upgrade ch p' ops)
    (hr : runOps h (info p') ch ops b = (b', some t)) : p'.upgrade = false := by
  obtain ⟨inclusive, bs, d, hmem, hnone⟩ := runOps_failed h _ ch ops b b' t hr
  obtain rfl := honly t _ bs d hnone
  obtain ⟨r, htrace, -⟩ := hstep.traced
  have hearly := url_early ops _ r inclusive htrace hmem
  rw [hstep.kept (early_trace ops _ r htrace hearly).2]
  exact hs.fresh hearly

/-- A byte that was parsed and after which `upgrade` is set was parsed without error. -/
theorem step_errno (honly : ∀ t i bs d, h.token t i bs d = none → t = .url) (m : Call σ)
    (ch : UInt8) (hs : Sound m.parser m.buffers) (hm : m.live = true)
    (hp : (m.step cfg h ch).parsed = m.parsed+1) (hu : (m.step cfg h ch).parser.upgrade = true) :
    (m.step cfg h ch).parser.httpErrno = .OK := by
  have hord := byte_ordered cfg m.parser ch hs.settled
  simp only [Call.step, hm, Bool.not_true, Bool.false_eq_true, if_false] at hp hu ⊢
  cases hb : byte cfg m.parser ch with
  | go p ops =>
    rw [hb] at hord
    simp only [hb] at hu ⊢
    cases hr : runOps h (info p) ch ops m.buffers with
    | mk b failed =>
      cases failed with
      | none => exact hord.1.settled.errno
      | some t =>
        simp only [hr, Call.callbackFailed, failed_fresh honly hs hord.1 hr] at hu
        cases hu
  | leave p ops =>
    rw [hb] at hord
    simp only [hb] at hu ⊢
    cases hr : runOps h (info p) ch ops m.buffers with
    | mk b failed =>
      cases failed with
      | none => exact hord.1.settled.errno
      | some t =>
        simp only [hr, Call.callbackFailed, failed_fresh honly hs hord.1 hr] at hu
        cases hu
  | error e p ops =>
    rw [hb] at hord
    simp only [hb] at hp ⊢
    cases hr : runOps h (info p) ch ops m.buffers with
    | mk b failed =>
      cases failed with
      | none =>
        simp only [hr] at hp
        omega
      | some t =>
        obtain ⟨inclusive, bs, d, hmem, hnone⟩ := runOps_failed h _ ch ops _ b t hr
        obtain rfl := honly t _ bs d hnone
        exact absurd hmem (hord.2 inclusive)

/-- The end of a call fails only inside a URL, or with a byte taken back. -/
theorem finish_errno (honly : ∀ t i bs d, h.token t i bs d = none → t = .url) (m : Call σ)
    (hs : Sound m.parser m.buffers) (hm : m.live = true) (hpos : 0 < m.parsed)
    (hp : (m.finish cfg h).parsed = m.parsed) (hu : (m.finish cfg h).parser.upgrade = true) :
    (m.finish cfg h).parser.httpErrno = .OK := by
  have hflush : ∀ i b t, flush h i flushOrder m.buffers = (b, some t) →
      m.parser.upgrade = false := by
    intro i b t hfailed
    apply hs.fresh
    cases hq : home (phase m.parser.state) with
    | none =>
      rw [flush_closed h i flushOrder _ fun u _ => hs.fits.closed u (by simp [hq])] at hfailed
      cases (Prod.mk.inj hfailed).2
    | some u =>
      rw [flush_single h i flushOrder _ u (hs.fits.only hq) (mem_flushOrder u)] at hfailed
      have hops : runOps h i 0 [.report u false] m.buffers = (b, some t) := by
        simp only [runOps, hfailed]
      obtain ⟨inclusive, bs, d, hmem, hnone⟩ := runOps_failed h i 0 _ _ b t hops
      obtain ⟨rfl, -⟩ : t = u ∧ inclusive = false := by simpa using hmem
      obtain rfl := honly t i bs d hnone
      cases hphase : phase m.parser.state <;> first | rfl | (rw [hphase] at hq; cases hq)
  rcases @finish_live σ cfg h m hm with ⟨-, hover, -⟩ | ⟨n, b, failed, hr, hfinish⟩
  · omega
  · cases failed with
    | none =>
      rw [hfinish]
      exact hs.settled.errno
    | some t =>
      simp only [hfinish, Call.callbackFailed, hflush _ b t hr] at hu
      cases hu

/-- A buffer that is parsed to its end, with `upgrade` set, is parsed without error. -/
theorem read_errno (honly : ∀ t i bs d, h.token t i bs d = none → t = .url) (bs : Bytes)
    (m : Call σ) (hs : Sound m.parser m.buffers) (hbs : bs ≠ [])
    (hp : ((read cfg h bs m).finish cfg h).parsed = m.parsed+bs.length)
    (hu : ((read cfg h bs m).finish cfg h).parser.upgrade = true) :
    ((read cfg h bs m).finish cfg h).parser.httpErrno = .OK := by
  have hread := finish_whole bs m hp
  obtain ⟨as, ch, rfl⟩ : ∃ as ch, bs = as ++ [ch] :=
    ⟨bs.dropLast, bs.getLast hbs, (List.dropLast_concat_getLast hbs).symm⟩
  obtain ⟨hl, hpas⟩ := read_before as [ch] m (List.cons_ne_nil ch []) hread
  have hsound := read_sound as m hs hl
  rw [read_append] at hread hp hu ⊢
  have hstep : read cfg h [ch] (read cfg h as m) = (read cfg h as m).step cfg h ch := rfl
  rw [hstep] at hread hp hu ⊢
  simp only [List.length_append, List.length_singleton] at hread hp
  cases hlast : ((read cfg h as m).step cfg h ch).live with
  | true =>
    exact finish_errno honly _ (sound_step _ ch hsound hlast) hlast (by omega) (by omega) hu
  | false =>
    have hdone : ∀ m : Call σ, m.live = false → m.finish cfg h = m := by
      intro m hm
      simp only [Call.finish, hm, Bool.not_false, if_true]
    rw [hdone _ hlast] at hu ⊢
    exact step_errno honly _ ch hsound hl (by omega) hu

theorem flatten_ne_nil {chunks : List Bytes} (hne : ∀ c ∈ chunks, c ≠ []) (hchunks : chunks ≠ []) :
    chunks.flatten ≠ [] := by
  obtain ⟨c, hc⟩ := List.exists_mem_of_ne_nil chunks hchunks
  intro hnil
  exact hne c hc (List.flatten_eq_nil_iff.mp hnil c hc)

theorem take_flatten {chunks : List Bytes} (hne : ∀ c ∈ chunks, c ≠ []) {i : ℕ}
    (hi : i < chunks.length) :
    ∃ rest, rest ≠ [] ∧ (chunks.take i).flatten ++ rest = chunks.flatten := by
  refine ⟨(chunks.drop i).flatten, ?_, by rw [← List.flatten_append, List.take_append_drop]⟩
  refine flatten_ne_nil (fun c hc => hne c (List.mem_of_mem_drop hc)) ?_
  rw [ne_eq, List.drop_eq_nil_iff]
  omega

/-- Bytes that one call parses to the end may be cut where no token is open but those
that may be cut. -/
theorem resume_cut (type : ParserType) (hD : Cuttable cfg h (Spare type)) (d : σ)
    (chunks : List Bytes) (hne : ∀ c ∈ chunks, c ≠ [])
    (hsafe : ∀ i, 0 < i → i < chunks.length →
      cutsToken type (scan cfg (.init type) (chunks.take i).flatten).state = false)
    (hp : (execute cfg h (.init type) d chunks.flatten).2.2 = chunks.flatten.length)
    (he : (execute cfg h (.init type) d chunks.flatten).1.httpErrno = .OK) :
    chunks.foldl (resume cfg h) (.init type, d) = resume cfg h (.init type, d) chunks.flatten := by
  by_cases hchunks : chunks = []
  · subst hchunks
    cases type <;> rfl
  · have hflat := flatten_ne_nil hne hchunks
    have hexec := @execute_read σ cfg h (.init type) d chunks.flatten rfl hflat
    rw [hexec] at hp he
    have hread := finish_whole chunks.flatten (.begin (.init type) d)
      (hp.trans (Nat.zero_add _).symm)
    have hall := chunks_sim hD chunks (.begin (.init type) d) d hne hchunks (sim_begin _ type d)
      ?_ hread he
    · simp only [resume, hexec]
      exact hall
    · intro i hi hlt t ht
      obtain ⟨rest, hrest, hsplit⟩ := take_flatten hne hlt
      have hl := (read_before (chunks.take i).flatten rest _ hrest (by rw [hsplit]; exact hread)).1
      rw [read_scan _ _ hl] at ht
      exact spare_home type _ (hsafe i hi hlt) t ht

end

section
variable {cfg : Config}

/-- `setWebsocket(true)`. -/
def noteUpgrade (s : RequestSink) : RequestSink :=
  { s with data := { s.data with websocket := true } }

theorem noteUpgrade_unnoticed : Unnoticed (requestSettings cfg) noteUpgrade := by
  constructor
  · intro t i bs d
    cases t with
    | url =>
      change onRequestUrl cfg bs (noteUpgrade d) = (onRequestUrl cfg bs d).map noteUpgrade
      simp only [onRequestUrl, Option.map_map]
      congr 1
      funext u
      simp only [Function.comp_apply, noteUpgrade]
      cases u.text bs .path <;> cases u.text bs .query <;> cases u.text bs .fragment <;> rfl
    | _ => rfl
  · intro n i d
    cases n <;> rfl

/-- The callbacks of a request append the pieces of a body and ignore a status. -/
theorem request_cuttable : Cuttable cfg (requestSettings cfg) (Spare .request) := by
  constructor
  · rintro t (rfl | rfl | ⟨-, ⟨⟩⟩)
    · exact ⟨fun _ _ d => ⟨d, rfl⟩, fun _ _ _ _ => rfl⟩
    · refine ⟨fun _ _ _ => ⟨_, rfl⟩, fun _ x y d => ?_⟩
      simp [requestSettings, HttpRequest.appendBody]
  · rintro t (rfl | rfl | ⟨-, ⟨⟩⟩) <;> decide
  · rintro t (rfl | rfl | ⟨-, ⟨⟩⟩) p p' ch ops - - <;> rfl

theorem request_fails (t : Token) (i : Info) (bs : Bytes) (d : RequestSink)
    (hn : (requestSettings cfg).token t i bs d = none) : t = .url := by
  cases t with
  | url => rfl
  | _ => cases hn

/-- Successive calls of `HttpRequestParser::execute`. -/
def feedRequest (cfg : Config) (r : HttpRequestParser) (chunks : List Bytes) : HttpRequestParser :=
  chunks.foldl (fun r c => (r.execute cfg c).1) r

structure RequestView where
  method : HttpMethod
  version : ℕ
  path : Bytes
  query : Bytes
  fragment : Bytes
  headers : MapType
  body : Bytes
  isFinished : Bool
  hasError : Bool
  deriving DecidableEq

def requestView (r : HttpRequestParser) : RequestView where
  method := r.sink.data.method
  version := r.sink.data.version
  path := r.sink.data.path
  query := r.sink.data.query
  fragment := r.sink.data.fragment
  headers := r.sink.data.headers
  body := r.sink.data.body
  isFinished := r.sink.finished
  hasError := r.hasError

structure Matches (r : HttpRequestParser) (s : HttpMachine.HttpParser × RequestSink) : Prop where
  parser : r.parser = s.1
  sink : r.sink = s.2 ∨ r.sink = noteUpgrade s.2
  error : r.error = .OK

theorem matches_execute (r : HttpRequestParser) (s : HttpMachine.HttpParser × RequestSink)
    (c : Bytes) (hr : Matches r s)
    (hok : (resume cfg (requestSettings cfg) s c).1.httpErrno = .OK) :
    Matches (r.execute cfg c).1 (resume cfg (requestSettings cfg) s c) := by
  obtain ⟨sink, hsink, hexec⟩ : ∃ sink, (sink = (resume cfg (requestSettings cfg) s c).2 ∨
      sink = noteUpgrade (resume cfg (requestSettings cfg) s c).2) ∧
      HttpParser.execute cfg (requestSettings cfg) r.parser r.sink c =
        ((resume cfg (requestSettings cfg) s c).1, sink,
          (HttpParser.execute cfg (requestSettings cfg) s.1 s.2 c).2.2) := by
    rw [hr.parser]
    rcases hr.sink with hd | hd
    · exact ⟨_, .inl rfl, by rw [hd]; rfl⟩
    · refine ⟨_, .inr rfl, ?_⟩
      rw [hd, execute_mapData noteUpgrade_unnoticed]
      rfl
  simp only [HttpRequestParser.execute, hexec, hok, ne_eq, not_true_eq_false, if_false]
  split_ifs with hup
  · refine ⟨rfl, .inr ?_, hr.error⟩
    rcases hsink with rfl | rfl <;> rfl
  · exact ⟨rfl, hsink, hr.error⟩

theorem matches_feed (chunks : List Bytes) (r : HttpRequestParser)
    (s : HttpMachine.HttpParser × RequestSink) (hr : Matches r s)
    (hok : (chunks.foldl (resume cfg (requestSettings cfg)) s).1.httpErrno = .OK) :
    Matches (feedRequest cfg r chunks) (chunks.foldl (resume cfg (requestSettings cfg)) s) := by
  induction chunks generalizing r s with
  | nil => exact hr
  | cons c rest ih =>
    have hc : (resume cfg (requestSettings cfg) s c).1.httpErrno = .OK := by
      by_contra hfailed
      rw [List.foldl_cons, resume_failed _ rest hfailed] at hok
      exact hfailed hok
    exact ih _ _ (matches_execute r s c hr hc) hok

theorem requestView_eq (r r' : HttpRequestParser) (s : HttpMachine.HttpParser × RequestSink)
    (hr : Matches r s) (hr' : Matches r' s) : requestView r = requestView r' := by
  obtain ⟨-, hsink, herror⟩ := hr
  obtain ⟨-, hsink', herror'⟩ := hr'
  simp only [requestView, HttpRequestParser.hasError, herror, herror']
  rcases hsink with h | h <;> rcases hsink' with h' | h' <;> rw [h, h'] <;> rfl

theorem matches_new : Matches .new (.init .request, HttpRequestParser.new.sink) :=
  ⟨rfl, .inl rfl, rfl⟩

def AcceptsRequest (cfg : Config) (bs : Bytes) : Prop :=
  (HttpRequestParser.new.execute cfg bs).1.hasError = false ∧
    (HttpRequestParser.new.execute cfg bs).2 = bs.length

instance (cfg : Config) (bs : Bytes) : Decidable (AcceptsRequest cfg bs) :=
  inferInstanceAs (Decidable (_ ∧ _))

/-- The error of an upgrade message is not recorded, but there is none. -/
theorem AcceptsRequest.errno {bs : Bytes} (ha : AcceptsRequest cfg bs) :
    (execute cfg (requestSettings cfg) (.init .request) HttpRequestParser.new.sink bs).2.2 =
        bs.length ∧
      (execute cfg (requestSettings cfg) (.init .request)
        HttpRequestParser.new.sink bs).1.httpErrno = .OK := by
  obtain ⟨herror, hp⟩ := ha
  have hparsed : (HttpRequestParser.new.execute cfg bs).2 = (execute cfg (requestSettings cfg)
      (.init .request) HttpRequestParser.new.sink bs).2.2 := by
    simp only [HttpRequestParser.execute]
    split_ifs <;> rfl
  rw [hparsed] at hp
  refine ⟨hp, ?_⟩
  by_cases hup : (execute cfg (requestSettings cfg) (.init .request)
      HttpRequestParser.new.sink bs).1.upgrade = true
  · by_cases hbs : bs = []
    · subst hbs
      rfl
    · have hexec := @execute_read _ cfg (requestSettings cfg) (.init .request)
        HttpRequestParser.new.sink bs rfl hbs
      rw [hexec] at hp hup ⊢
      exact read_errno request_fails bs _ (sound_begin _ _) hbs (hp.trans (Nat.zero_add _).symm) hup
  · by_contra hfailed
    simp only [HttpRequestParser.execute, HttpRequestParser.hasError] at herror
    rw [show HttpRequestParser.new.parser = .init .request from rfl, if_neg hup,
      if_pos hfailed] at herror
    simp [hfailed] at herror

/-- A request may be cut between its tokens and inside its body. -/
theorem request_cut (chunks : List Bytes) (hne : ∀ c ∈ chunks, c ≠ [])
    (ha : AcceptsRequest cfg chunks.flatten)
    (hsafe : ∀ i, 0 < i → i < chunks.length →
      cutsToken .request (scan cfg (.init .request) (chunks.take i).flatten).state = false) :
    Matches (feedRequest cfg .new chunks)
      (resume cfg (requestSettings cfg) (.init .request, HttpRequestParser.new.sink)
        chunks.flatten) := by
  obtain ⟨hp, he⟩ := ha.errno
  have hcut := resume_cut .request request_cuttable _ chunks hne hsafe hp he
  have hmatch := matches_feed chunks .new _ matches_new (by rw [hcut]; exact he)
  rw [hcut] at hmatch
  exact hmatch

/-- A byte is counted as part of the header, then the switch over the state runs. -/
theorem byte_reexecute (cfg : Config) (p : HttpMachine.HttpParser) (ch : UInt8) :
    (∃ p', p'.statusCode = p.statusCode ∧ byte cfg p ch = .error .HEADER_OVERFLOW p' []) ∨
      ∃ n, byte cfg p ch = reexecute cfg { p with nread := n } ch := by
  unfold byte
  split_ifs
  · simp only [countHeaderSize]
    split_ifs
    · exact .inl ⟨{ p with nread := (p.nread+1) % 2^32 }, rfl, rfl⟩
    · exact .inr ⟨_, rfl⟩
  · exact .inr ⟨p.nread, rfl⟩

theorem resStatus_statusCode (p : HttpMachine.HttpParser) (ch : UInt8)
    (hs : p.state = .resStatus) : (Outcome.parser (byte cfg p ch)).statusCode = p.statusCode := by
  rcases byte_reexecute cfg p ch with ⟨p', hp', hb⟩ | ⟨n, hb⟩
  · rw [hb]
    exact hp'
  · rw [hb]
    simp only [reexecute, hs, resStatus]
    split_ifs <;> rfl

/-- The callbacks of a response append the pieces of a body and see the same status
code at every piece of the status text. -/
theorem response_cuttable : Cuttable cfg responseSettings (Spare .response) := by
  constructor
  · rintro t (rfl | rfl | ⟨rfl, -⟩)
    · exact ⟨fun _ _ _ => ⟨_, rfl⟩, fun _ _ _ _ => rfl⟩
    · refine ⟨fun _ _ _ => ⟨_, rfl⟩, fun _ x y d => ?_⟩
      simp [responseSettings, HttpResponse.appendBody]
    · exact ⟨fun _ _ d => ⟨d, rfl⟩, fun _ _ _ _ => rfl⟩
  · rintro t (rfl | rfl | ⟨rfl, -⟩) <;> decide
  · rintro t (rfl | rfl | ⟨rfl, -⟩) p p' ch ops hhome hbyte
    · have hs : p.state = .resStatus := by
        cases hp : p.state <;> first | rfl | (rw [hp] at hhome; cases hhome)
      have hcode := @resStatus_statusCode cfg p ch hs
      have hp' : Outcome.parser (byte cfg p ch) = p' := by
        rcases hbyte with hbyte | hbyte <;> rw [hbyte] <;> rfl
      rw [hp'] at hcode
      simp only [responseSettings, info, hcode]
    · rfl
    · rfl

/-- Successive calls of `HttpResponseParser::execute`. -/
def feedResponse (cfg : Config) (r : HttpResponseParser) (chunks : List Bytes) :
    HttpResponseParser :=
  chunks.foldl (fun r c => (r.execute cfg c).1) r

structure ResponseView where
  status : ℕ
  version : ℕ
  headers : MapType
  body : Bytes
  isFinished : Bool
  hasError : Bool
  deriving DecidableEq

def responseView (r : HttpResponseParser) : ResponseView where
  status := r.sink.data.status
  version := r.sink.data.version
  headers := r.sink.data.headers
  body := r.sink.data.body
  isFinished := r.sink.finished
  hasError := r.hasError

def AcceptsResponse (cfg : Config) (bs : Bytes) : Prop :=
  (HttpResponseParser.new.execute cfg bs).1.hasError = false ∧
    (HttpResponseParser.new.execute cfg bs).2 = bs.length

instance (cfg : Config) (bs : Bytes) : Decidable (AcceptsResponse cfg bs) :=
  inferInstanceAs (Decidable (_ ∧ _))

theorem response_execute (r : HttpResponseParser) (c : Bytes) :
    r.execute cfg c =
      ({ parser := (resume cfg responseSettings (r.parser, r.sink) c).1
         sink := (resume cfg responseSettings (r.parser, r.sink) c).2
         error := if (resume cfg responseSettings (r.parser, r.sink) c).1.httpErrno = .OK then
            r.error
          else (resume cfg responseSettings (r.parser, r.sink) c).1.httpErrno },
        (execute cfg responseSettings r.parser r.sink c).2.2) := by
  by_cases he : (resume cfg responseSettings (r.parser, r.sink) c).1.httpErrno = .OK
  · have he' : (execute cfg responseSettings r.parser r.sink c).1.httpErrno = .OK := he
    rw [if_pos he]
    simp only [HttpResponseParser.execute, he', ne_eq, not_true_eq_false, if_false]
    rfl
  · have he' : (execute cfg responseSettings r.parser r.sink c).1.httpErrno ≠ .OK := he
    rw [if_neg he]
    simp only [HttpResponseParser.execute, he', ne_eq, not_false_eq_true, if_true]
    rfl

theorem response_feed (chunks : List Bytes) (r : HttpResponseParser) (he : r.error = .OK)
    (hok : (chunks.foldl (resume cfg responseSettings) (r.parser, r.sink)).1.httpErrno = .OK) :
    feedResponse cfg r chunks =
      { parser := (chunks.foldl (resume cfg responseSettings) (r.parser, r.sink)).1
        sink := (chunks.foldl (resume cfg responseSettings) (r.parser, r.sink)).2
        error := .OK } := by
  induction chunks generalizing r with
  | nil =>
    rw [← he]
    rfl
  | cons c rest ih =>
    have hc : (resume cfg responseSettings (r.parser, r.sink) c).1.httpErrno = .OK := by
      by_contra hfailed
      rw [List.foldl_cons, resume_failed _ rest hfailed] at hok
      exact hfailed hok
    have hr := @response_execute cfg r c
    rw [if_pos hc, he] at hr
    simp only [feedResponse, List.foldl_cons, hr] at hok ⊢
    exact ih ⟨_, _, .OK⟩ rfl hok

theorem AcceptsResponse.errno {bs : Bytes} (ha : AcceptsResponse cfg bs) :
    (execute cfg responseSettings (.init .response) HttpResponseParser.new.sink bs).2.2 =
        bs.length ∧
      (execute cfg responseSettings (.init .response)
        HttpResponseParser.new.sink bs).1.httpErrno = .OK := by
  obtain ⟨herror, hp⟩ := ha
  rw [response_execute] at herror hp
  refine ⟨hp, ?_⟩
  change (resume cfg responseSettings (HttpResponseParser.new.parser, HttpResponseParser.new.sink)
    bs).1.httpErrno = .OK
  by_contra hfailed
  simp only [HttpResponseParser.hasError] at herror
  rw [if_neg hfailed] at herror
  simp only [ne_eq, decide_eq_false_iff_not, not_not] at herror
  exact hfailed herror

/-- A response may be cut between its tokens and inside its status text and body. -/
theorem response_cut (chunks : List Bytes) (hne : ∀ c ∈ chunks, c ≠ [])
    (ha : AcceptsResponse cfg chunks.flatten)
    (hsafe : ∀ i, 0 < i → i < chunks.length →
      cutsToken .response (scan cfg (.init .response) (chunks.take i).flatten).state = false) :
    feedResponse cfg .new chunks = feedResponse cfg .new [chunks.flatten] := by
  obtain ⟨hp, he⟩ := ha.errno
  have hcut : chunks.foldl (resume cfg responseSettings)
      (HttpResponseParser.new.parser, HttpResponseParser.new.sink) = _ :=
    resume_cut .response response_cuttable _ chunks hne hsafe hp he
  rw [response_feed chunks .new rfl (by rw [hcut]; exact he),
    response_feed [chunks.flatten] .new rfl he, hcut]
  rfl

end

end Lamb.HttpSegmentation
