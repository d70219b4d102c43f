import Lamb.HttpParser

/-!
# The order of the callbacks

Every byte does to the tokens what a small grammar over phases admits: a URL or a
status text in the first line, then field and value of each header, then the pieces
of the body. Properties of the callbacks' data are proved over this grammar and not
over the states of the machine.
-/

set_option autoImplicit false

namespace Lamb.HttpTrace
open Lamb.ByteString Lamb.Http Lamb.HttpUrl Lamb.HttpMachine Lamb.Tokens

/-- `lineEnd`, `fieldFresh`, `bodyOpen` and `complete` are left again with the byte
that enters them. -/
inductive Phase where
  | start
  | url
  | status
  | lineEnd
  | head
  | fieldFresh
  | field
  | preValue
  | value
  | postValue
  | body
  | bodyOpen
  | complete
  deriving DecidableEq, Repr

def phase : State → Phase
  | .dead => .start
  | .startRes => .start
  | .resH => .start
  | .resHT => .start
  | .resHTT => .start
  | .resHTTP => .start
  | .resHttpMajor => .start
  | .resHttpDot => .start
  | .resHttpMinor => .start
  | .resHttpEnd => .start
  | .resFirstStatusCode => .start
  | .resStatusCode => .start
  | .resStatusStart => .start
  | .resStatus => .status
  | .startReq => .start
  | .reqMethod => .start
  | .reqSpacesBeforeUrl => .start
  | .reqSchema => .url
  | .reqSchemaSlash => .url
  | .reqSchemaSlashSlash => .url
  | .reqServerStart => .url
  | .reqServer => .url
  | .reqServerWithAt => .url
  | .reqPath => .url
  | .reqQueryStringStart => .url
  | .reqQueryString => .url
  | .reqFragmentStart => .url
  | .reqFragment => .url
  | .headerField => .field
  | .headerValueDiscardWs => .preValue
  | .headerValueDiscardWsAlmostDone => .preValue
  | .headerValueDiscardLws => .preValue
  | .headerValueStart => .postValue
  | .headerValue => .value
  | .headerValueLws => .postValue
  | .headerAlmostDone => .postValue
  | .chunkData => .body
  | .chunkDataAlmostDone => .body
  | .bodyIdentity => .body
  | .bodyIdentityEof => .body
  | _ => .head

def nextPhase : Phase → Op → Option Phase
  | .start, .notify .messageBegin => some .start
  | .start, .mark .url => some .url
  | .start, .mark .status => some .status
  | .url, .report .url false => some .lineEnd
  | .status, .report .status false => some .lineEnd
  | .head, .mark .headerField => some .fieldFresh
  | .postValue, .mark .headerField => some .fieldFresh
  | .field, .report .headerField false => some .preValue
  | .preValue, .mark .headerValue => some .value
  | .postValue, .mark .headerValue => some .value
  | .value, .report .headerValue false => some .postValue
  | .head, .notify .headersComplete => some .head
  | .postValue, .notify .headersComplete => some .head
  | .head, .notify .chunkHeader => some .head
  | .head, .notify .chunkComplete => some .head
  | .postValue, .notify .chunkComplete => some .head
  | .head, .notify .messageComplete => some .complete
  | .body, .mark .body => some .bodyOpen
  | .body, .report .body false => some .head
  | .bodyOpen, .report .body true => some .head
  | _, _ => none

def Phase.settles : Phase → Phase → Bool
  | .lineEnd, q => q = .head
  | .fieldFresh, q => q = .field
  | .bodyOpen, q => q = .body
  | .complete, q => q = .start
  | .body, _ => false
  | .head, q => q = .head ∨ q = .body
  | .postValue, q => q = .postValue ∨ q = .head
  | p, q => p = q

def Calm (p : HttpParser) : Prop := p.segment = 0 ∧ p.general = 0 ∧ p.httpErrno = .OK

def Quiet (u : Bool) (p : HttpParser) : Prop := p.upgrade = u ∧ Calm p

def Settled (p : HttpParser) : Prop :=
  Calm p ∨ (p.state = .headerField ∧ p.general = 0 ∧ p.httpErrno = .OK) ∨
    (p.state = .headerValue ∧ p.httpErrno = .OK)

/-- A byte `ch` in phase `q` that ends in `p` after the operations `ops`, where
`upgrade` was `u` before. -/
structure Step (q : Phase) (u : Bool) (ch : UInt8) (p : HttpParser) (ops : List Op) : Prop where
  traced : ∃ r, trace nextPhase ops q = some r ∧ r.settles (phase p.state) = true
  settled : Settled p
  fieldByte : .mark .headerField ∈ ops → ch ≠ 0
  kept : .notify .headersComplete ∉ ops → p.upgrade = u

def Ordered (q : Phase) (u : Bool) (ch : UInt8) : Outcome → Prop
  | .go p ops => Step q u ch p ops ∧ (.notify .messageComplete ∈ ops → p.upgrade = false)
  | .leave p ops => Step q u ch p ops ∧ p.upgrade = true ∧ phase p.state = .start
  | .error e _ ops => e ≠ .OK ∧ ∀ inclusive, .report .url inclusive ∉ ops

variable {cfg : Config} {q r : Phase} {u : Bool} {ch : UInt8} {p : HttpParser}

theorem Step.after {ops rest : List Op} (h : Step r u ch p rest)
    (ht : trace nextPhase ops q = some r) (hf : .mark .headerField ∉ ops) :
    Step q u ch p (ops ++ rest) := by
  obtain ⟨s, hs, hsettles⟩ := h.traced
  refine ⟨⟨s, ?_, hsettles⟩, h.settled, ?_, ?_⟩
  · rw [trace_append, ht]
    exact hs
  · intro hmem
    exact h.fieldByte ((List.mem_append.mp hmem).resolve_left hf)
  · intro hmem
    exact h.kept (fun hrest => hmem (List.mem_append_right ops hrest))

theorem ordered_after (ops : List Op) (o : Outcome) (ht : trace nextPhase ops q = some r)
    (hf : .mark .headerField ∉ ops) (hc : .notify .messageComplete ∉ ops)
    (hurl : ∀ inclusive, .report .url inclusive ∉ ops)
    (ho : Ordered r u ch o) : Ordered q u ch (o.after ops) := by
  cases o with
  | go p rest =>
    refine ⟨ho.1.after ht hf, ?_⟩
    intro hmem
    exact ho.2 ((List.mem_append.mp hmem).resolve_left hc)
  | leave p rest => exact ⟨ho.1.after ht hf, ho.2⟩
  | error e p rest =>
    refine ⟨ho.1, ?_⟩
    intro inclusive hmem
    exact ho.2 inclusive ((List.mem_append.mp hmem).resolve_left (hurl inclusive))

/-- After `on_headers_complete` the value of `upgrade` before the byte is forgotten. -/
theorem ordered_after_headers (o : Outcome) (hq : q = .head ∨ q = .postValue) (v : Bool)
    (ho : Ordered .head v ch o) : Ordered q u ch (o.after [.notify .headersComplete]) := by
  have ht : trace nextPhase [.notify .headersComplete] q = some .head := by
    rcases hq with rfl | rfl <;> rfl
  have hstep : ∀ p rest, Step .head v ch p rest →
      Step q u ch p ([.notify .headersComplete] ++ rest) := by
    intro p rest h
    obtain ⟨htr, hset, hfb, -⟩ := h.after ht (by decide)
    exact ⟨htr, hset, hfb, fun hmem => absurd List.mem_cons_self hmem⟩
  cases o with
  | go p rest =>
    refine ⟨hstep p rest ho.1, ?_⟩
    intro hmem
    exact ho.2 ((List.mem_append.mp hmem).resolve_left (by decide))
  | leave p rest => exact ⟨hstep p rest ho.1, ho.2⟩
  | error e p rest =>
    refine ⟨ho.1, ?_⟩
    intro inclusive hmem
    refine ho.2 inclusive ((List.mem_append.mp hmem).resolve_left ?_)
    rw [List.mem_singleton]
    intro he
    cases he

theorem step_ops (ops : List Op) (ht : trace nextPhase ops q = some r)
    (hs : r.settles (phase p.state) = true) (hp : Settled p) (hu : p.upgrade = u)
    (hf : .mark .headerField ∉ ops) : Step q u ch p ops :=
  ⟨⟨r, ht, hs⟩, hp, fun h => absurd h hf, fun _ => hu⟩

theorem ordered_nil (hs : q.settles (phase p.state) = true) (hp : Settled p)
    (hu : p.upgrade = u) : Ordered q u ch (.go p []) :=
  ⟨step_ops [] rfl hs hp hu List.not_mem_nil, fun h => absurd h List.not_mem_nil⟩

/-- A byte inside a message, with operations other than the mark of a header field. -/
theorem ordered_ops (ops : List Op) (ht : trace nextPhase ops q = some r)
    (hs : r.settles (phase p.state) = true) (hp : Settled p) (hu : p.upgrade = u)
    (hf : .mark .headerField ∉ ops) (hc : .notify .messageComplete ∉ ops) :
    Ordered q u ch (.go p ops) :=
  ⟨step_ops ops ht hs hp hu hf, fun h => absurd h hc⟩

theorem goto_ordered (s : State) (hs : q.settles (phase s) = true) (hp : Quiet u p) :
    Ordered q u ch (p.goto s) :=
  ordered_nil hs (.inl hp.2) hp.1

theorem fail_ordered {e : Errno} (he : e ≠ .OK) : Ordered q u ch (p.fail e) :=
  ⟨he, fun _ => List.not_mem_nil⟩

theorem strictCheck_ordered (cond : Bool) (k : Outcome) (hk : Ordered q u ch k) :
    Ordered q u ch (strictCheck cfg cond p k) := by
  unfold strictCheck
  split_ifs
  · exact fail_ordered (by decide)
  · exact hk

theorem countHeaderSize_ordered (v : ℕ) (k : HttpParser → Outcome)
    (hk : ∀ n, Ordered q u ch (k { p with nread := n })) :
    Ordered q u ch (countHeaderSize cfg p v k) := by
  simp only [countHeaderSize]
  split_ifs
  · exact fail_ordered (by decide)
  · exact hk _

theorem phase_newMessage (p : HttpParser) : phase (p.newMessage cfg) = .start := by
  unfold HttpParser.newMessage
  split_ifs
  · rfl
  · cases p.type <;> rfl

theorem serverChar_url (ch : UInt8) : serverChar ch = .dead ∨ phase (serverChar ch) = .url := by
  unfold serverChar
  split_ifs <;> decide

/-- Inside a URL, and at its first character, `parse_url_char` stays inside or dies. -/
theorem parseUrlChar_url (strict : Bool) (s : State) (ch : UInt8) :
    parseUrlChar strict s ch = .dead ∨ phase (parseUrlChar strict s ch) = .url := by
  simp only [parseUrlChar]
  by_cases hspace : ch = ' ' ∨ ch = CR ∨ ch = LF
  · rw [if_pos hspace]
    exact .inl rfl
  by_cases htab : strict ∧ (ch = '\t' ∨ ch = 12)
  · rw [if_neg hspace, if_pos htab]
    exact .inl rfl
  rw [if_neg hspace, if_neg htab]
  split
  case h_5 =>
    split_ifs
    · exact .inl rfl
    · exact serverChar_url ch
  case h_6 => exact serverChar_url ch
  case h_7 => exact serverChar_url ch
  all_goals first | (split_ifs <;> decide) | exact .inl rfl

theorem urlChar_ordered (hp : Quiet u p) : Ordered .url u ch (urlChar cfg p ch) := by
  simp only [urlChar]
  split_ifs with hdead
  · exact fail_ordered (by decide)
  · have hurl := (parseUrlChar_url cfg.strict p.state ch).resolve_left hdead
    apply goto_ordered _ _ hp
    rw [hurl]
    rfl

theorem complete_settles (p : HttpParser) :
    Phase.complete.settles (phase (p.newMessage cfg)) = true := by
  rw [phase_newMessage]
  rfl

theorem complete_step (hp : Quiet u p) :
    Step .head u ch { p with state := p.newMessage cfg } [.notify .messageComplete] :=
  step_ops _ rfl (complete_settles p) (.inl hp.2) hp.1 (by decide)

theorem messageDone_ordered (hp : Quiet u p) : Ordered .head u ch (messageDone cfg p) := by
  simp only [messageDone]
  split_ifs with hu
  · exact ⟨complete_step hp, hu, phase_newMessage p⟩
  · exact ⟨complete_step hp, fun _ => Bool.eq_false_of_not_eq_true hu⟩

theorem headersDone_ordered (hp : Quiet u p) :
    Ordered .head u ch (headersDone cfg p ch) := by
  have hdone : Step .head u ch
      { p with nread := 0, state := { p with nread := 0 }.newMessage cfg }
      [.notify .messageComplete] :=
    complete_step (p := { p with nread := 0 }) hp
  simp only [headersDone]
  apply strictCheck_ordered
  -- without a body the first branch takes every upgrade
  split_ifs with hup hskip hchunked hzero hlen heof
  · exact ⟨hdone, hup.1, phase_newMessage _⟩
  · refine ⟨hdone, fun _ => ?_⟩
    simpa [hskip] using hup
  · exact goto_ordered _ rfl hp
  · refine ⟨hdone, fun _ => ?_⟩
    simpa [hskip, hchunked, hzero] using hup
  · exact goto_ordered _ rfl hp
  · refine ⟨hdone, fun _ => ?_⟩
    simpa [hskip, hchunked, not_not.mp hlen] using hup
  · exact goto_ordered _ rfl hp

/-- The header block ends: from a phase between two headers. -/
theorem headersAlmostDone_ordered (hq : q = .head ∨ q = .postValue) (hp : Quiet u p) :
    Ordered q u ch (headersAlmostDone cfg p ch) := by
  simp only [headersAlmostDone]
  apply strictCheck_ordered
  split_ifs
  · refine ordered_after (r := .head) [.notify .chunkComplete] _ ?_ (by decide) (by decide)
      (by decide) (messageDone_ordered hp)
    rcases hq with rfl | rfl <;> rfl
  · exact fail_ordered (by decide)
  · exact ordered_after_headers _ hq _ (headersDone_ordered ⟨rfl, hp.2⟩)

theorem token_zero (cfg : Config) : token cfg 0 = 0 := by
  unfold token
  split_ifs <;> decide

theorem headerFieldStart_ordered (hq : q = .head ∨ q = .postValue) (hp : Quiet u p) :
    Ordered q u ch (headerFieldStart cfg p ch) := by
  unfold headerFieldStart
  split_ifs with hcr hlf htoken
  · apply goto_ordered _ _ hp
    rcases hq with rfl | rfl <;> rfl
  · exact headersAlmostDone_ordered hq hp
  · exact fail_ordered (by decide)
  · refine ⟨⟨⟨.fieldFresh, ?_, rfl⟩, .inl hp.2, ?_, fun _ => hp.1⟩, fun h => absurd h (by decide)⟩
    · rcases hq with rfl | rfl <;> rfl
    · rintro - rfl
      exact htoken (token_zero cfg)

theorem fieldChar_keeps (p : HttpParser) (c ch : UInt8) :
    (fieldChar p c ch).state = p.state ∧ (fieldChar p c ch).general = p.general ∧
      (fieldChar p c ch).upgrade = p.upgrade ∧ (fieldChar p c ch).httpErrno = p.httpErrno := by
  unfold fieldChar
  split <;> (try split_ifs) <;> exact ⟨rfl, rfl, rfl, rfl⟩

theorem headerField_ordered (hs : p.state = .headerField) (hg : p.general = 0)
    (he : p.httpErrno = .OK) (hu : p.upgrade = u) :
    Ordered .field u ch (headerField cfg p ch) := by
  simp only [headerField]
  split_ifs with htoken hcolon
  · apply countHeaderSize_ordered
    intro n
    exact ordered_ops _ rfl rfl (.inl ⟨rfl, hg, he⟩) hu (by decide) (by decide)
  · apply countHeaderSize_ordered
    intro n
    exact fail_ordered (by decide)
  · have hk := fieldChar_keeps p (token cfg ch) ch
    refine ordered_nil ?_ (.inr (.inl ⟨hk.1.trans hs, hk.2.1.trans hg, hk.2.2.2.trans he⟩))
      (hk.2.2.1.trans hu)
    simp only [hk.1, hs]
    rfl

theorem headerValueStart_ordered (hq : q = .preValue ∨ q = .postValue) (hp : Quiet u p) :
    Ordered q u ch (headerValueStart p ch) := by
  have hmark : ∀ p' : HttpParser, p'.state = .headerValue → Quiet u p' →
      Ordered q u ch (.go p' [.mark .headerValue]) := by
    intro p' hs hp'
    refine ordered_ops (r := .value) _ ?_ ?_ (.inl hp'.2) hp'.1 (by decide) (by decide)
    · rcases hq with rfl | rfl <;> rfl
    · rw [hs]
      rfl
  unfold headerValueStart
  split
  case h_3 =>
    split_ifs
    · exact ⟨by decide, fun inclusive => by cases inclusive <;> decide⟩
    · exact ⟨by decide, fun inclusive => by cases inclusive <;> decide⟩
    · exact hmark _ rfl hp
  all_goals exact hmark _ rfl hp

theorem contentLengthChar_keeps (p p' : HttpParser) (ch : UInt8)
    (h : contentLengthChar p ch = some p') :
    p'.state = p.state ∧ p'.upgrade = p.upgrade ∧ p'.httpErrno = p.httpErrno := by
  unfold contentLengthChar at h
  split_ifs at h <;> (cases h; exact ⟨rfl, rfl, rfl⟩)

theorem valueChar_keeps (p p' : HttpParser) (ch : UInt8) (h : valueChar p ch = some p') :
    p'.state = p.state ∧ p'.upgrade = p.upgrade ∧ p'.httpErrno = p.httpErrno := by
  simp only [valueChar, connectionTokenEnd] at h
  split at h <;>
    first
    | exact contentLengthChar_keeps p p' ch h
    | (split_ifs at h <;>
        first | (cases h; exact ⟨rfl, rfl, rfl⟩) | exact contentLengthChar_keeps p p' ch h)
    | (cases h; exact ⟨rfl, rfl, rfl⟩)

theorem headerValue_ordered (hs : p.state = .headerValue) (he : p.httpErrno = .OK)
    (hu : p.upgrade = u) :
    Ordered .value u ch (headerValue cfg p ch) := by
  simp only [headerValue]
  split_ifs
  · exact ordered_nil (by rw [hs]; rfl) (.inr (.inr ⟨hs, he⟩)) hu
  · refine ordered_after (r := .postValue) _ _ rfl (by decide) (by decide) (by decide) ?_
    apply countHeaderSize_ordered
    intro n
    exact ordered_nil rfl (.inl ⟨rfl, rfl, he⟩) hu
  · apply countHeaderSize_ordered
    intro n
    refine ordered_after (r := .postValue) _ _ rfl (by decide) (by decide) (by decide) ?_
    unfold lineFeed
    split_ifs
    exact goto_ordered _ rfl ⟨hu, rfl, rfl, he⟩
  · exact fail_ordered (by decide)
  · split
    · exact fail_ordered (by decide)
    case h_2 p' hp' =>
      have hk := valueChar_keeps p p' ch hp'
      have hs' := hk.1.trans hs
      exact ordered_nil (by rw [hs']; rfl) (.inr (.inr ⟨hs', hk.2.2.trans he⟩)) (hk.2.1.trans hu)

theorem commitHeader_quiet (hp : Quiet u p) : Quiet u p.commitHeader := by
  unfold HttpParser.commitHeader
  split <;> exact hp

theorem headerValueLws_ordered (hp : Quiet u p) :
    Ordered .postValue u ch (headerValueLws cfg p ch) := by
  simp only [headerValueLws]
  split_ifs
  · exact headerValueStart_ordered (.inr rfl) hp
  · exact headerValueStart_ordered (.inr rfl) hp
  · exact headerFieldStart_ordered (.inr rfl) (commitHeader_quiet hp)

theorem headerValueDiscardLws_ordered (hp : Quiet u p) :
    Ordered .preValue u ch (headerValueDiscardLws cfg p ch) := by
  unfold headerValueDiscardLws
  split_ifs
  · exact goto_ordered _ rfl hp
  · exact fail_ordered (by decide)
  · exact ordered_after (r := .postValue) _ _ rfl (by decide) (by decide) (by decide)
      (headerFieldStart_ordered (.inr rfl) (commitHeader_quiet hp))

theorem startRes_ordered (hs : p.state = .startRes) (hp : Quiet u p) :
    Ordered .start u ch (startRes p ch) := by
  simp only [startRes]
  split_ifs
  · exact ordered_nil (by rw [hs]; rfl) (.inl hp.2) hp.1
  · exact ordered_ops _ rfl rfl (.inl hp.2) hp.1 (by decide) (by decide)
  · exact fail_ordered (by decide)

theorem startReq_ordered (hs : p.state = .startReq) (hp : Quiet u p) :
    Ordered .start u ch (startReq p ch) := by
  simp only [startReq]
  split_ifs
  · exact ordered_nil (by rw [hs]; rfl) (.inl hp.2) hp.1
  · exact fail_ordered (by decide)
  · split
    · exact fail_ordered (by decide)
    · exact ordered_ops _ rfl rfl (.inl hp.2) hp.1 (by decide) (by decide)

theorem expect_ordered (c : UInt8) (s : State) (hs : q.settles (phase s) = true) (hp : Quiet u p) :
    Ordered q u ch (expect cfg p ch c s) :=
  strictCheck_ordered _ _ (goto_ordered s hs hp)

theorem httpMajor_ordered (s : State) (hs : q.settles (phase s) = true) (hp : Quiet u p) :
    Ordered q u ch (httpMajor p ch s) := by
  unfold httpMajor
  split_ifs
  · exact ordered_nil hs (.inl hp.2) hp.1
  · exact fail_ordered (by decide)

theorem httpMinor_ordered (s : State) (hs : q.settles (phase s) = true) (hp : Quiet u p) :
    Ordered q u ch (httpMinor p ch s) := by
  unfold httpMinor
  split_ifs
  · exact ordered_nil hs (.inl hp.2) hp.1
  · exact fail_ordered (by decide)

theorem versionChar_ordered (c : UInt8) (s : State) (hs : q.settles (phase s) = true)
    (hp : Quiet u p) : Ordered q u ch (versionChar p ch c s) := by
  unfold versionChar
  split_ifs
  · exact goto_ordered s hs hp
  · exact fail_ordered (by decide)

theorem lineFeed_ordered (s : State) (hs : q.settles (phase s) = true) (hp : Quiet u p) :
    Ordered q u ch (lineFeed p ch s) := by
  unfold lineFeed
  split_ifs
  · exact goto_ordered s hs hp
  · exact fail_ordered (by decide)

theorem resFirstStatusCode_ordered (hs : p.state = .resFirstStatusCode) (hp : Quiet u p) :
    Ordered .start u ch (resFirstStatusCode p ch) := by
  unfold resFirstStatusCode
  split_ifs
  · exact ordered_nil rfl (.inl hp.2) hp.1
  · exact ordered_nil (by rw [hs]; rfl) (.inl hp.2) hp.1
  · exact fail_ordered (by decide)

theorem resStatus_ordered (hs : p.state = .resStatus) (hp : Quiet u p) :
    Ordered .status u ch (resStatus p ch) := by
  unfold resStatus
  split_ifs
  · exact ordered_ops _ rfl rfl (.inl hp.2) hp.1 (by decide) (by decide)
  · exact ordered_ops _ rfl rfl (.inl hp.2) hp.1 (by decide) (by decide)
  · exact ordered_nil (by rw [hs]; rfl) (.inl hp.2) hp.1

theorem resStatusStart_ordered (hp : Quiet u p) : Ordered .start u ch (resStatusStart p ch) := by
  simp only [resStatusStart]
  split_ifs
  · exact ordered_after (r := .status) _ _ rfl (by decide) (by decide) (by decide)
      (resStatus_ordered rfl hp)
  · exact ordered_ops _ rfl rfl (.inl hp.2) hp.1 (by decide) (by decide)

theorem resStatusCode_ordered (hs : p.state = .resStatusCode) (hp : Quiet u p) :
    Ordered .start u ch (resStatusCode p ch) := by
  simp only [resStatusCode]
  split_ifs
  · exact fail_ordered (by decide)
  · exact ordered_nil (by rw [hs]; rfl) (.inl hp.2) hp.1
  · exact goto_ordered _ rfl hp
  · exact resStatusStart_ordered hp
  · exact fail_ordered (by decide)

theorem reqMethod_ordered (hs : p.state = .reqMethod) (hp : Quiet u p) :
    Ordered .start u ch (reqMethod cfg p ch) := by
  have hstay : ∀ p' : HttpParser, p'.state = p.state → Quiet u p' →
      Ordered .start u ch (.go p' []) :=
    fun p' h hq => ordered_nil (by rw [h, hs]; rfl) (.inl hq.2) hq.1
  simp only [reqMethod]
  split_ifs
  · exact fail_ordered (by decide)
  · exact goto_ordered _ rfl hp
  · exact hstay _ rfl hp
  · split
    · exact hstay _ rfl hp
    · exact fail_ordered (by decide)
  · exact fail_ordered (by decide)

theorem reqSpacesBeforeUrl_ordered (hs : p.state = .reqSpacesBeforeUrl) (hp : Quiet u p) :
    Ordered .start u ch (reqSpacesBeforeUrl cfg p ch) := by
  simp only [reqSpacesBeforeUrl]
  split_ifs
  · exact ordered_nil (by rw [hs]; rfl) (.inl hp.2) hp.1
  · exact ordered_after (r := .url) _ _ rfl (by decide) (by decide) (by decide) (urlChar_ordered hp)
  · exact ordered_after (r := .url) _ _ rfl (by decide) (by decide) (by decide) (urlChar_ordered hp)

theorem urlOpen_ordered (hp : Quiet u p) : Ordered .url u ch (urlOpen cfg p ch) := by
  unfold urlOpen
  split_ifs
  · exact fail_ordered (by decide)
  · exact urlChar_ordered hp

theorem urlRest_ordered (hp : Quiet u p) : Ordered .url u ch (urlRest cfg p ch) := by
  unfold urlRest
  split_ifs
  · exact ordered_ops _ rfl rfl (.inl hp.2) hp.1 (by decide) (by decide)
  · exact ordered_ops _ rfl rfl (.inl hp.2) hp.1 (by decide) (by decide)
  · exact ordered_ops _ rfl rfl (.inl hp.2) hp.1 (by decide) (by decide)
  · exact urlChar_ordered hp

theorem reqHttpStart_ordered (hs : p.state = .reqHttpStart) (hp : Quiet u p) :
    Ordered .head u ch (reqHttpStart p ch) := by
  unfold reqHttpStart
  split_ifs
  · exact ordered_nil (by rw [hs]; rfl) (.inl hp.2) hp.1
  · exact goto_ordered _ rfl hp
  · exact goto_ordered _ rfl hp
  · exact fail_ordered (by decide)

theorem reqHttpEnd_ordered (hp : Quiet u p) : Ordered .head u ch (reqHttpEnd p ch) := by
  unfold reqHttpEnd
  split_ifs
  · exact goto_ordered _ rfl hp
  · exact goto_ordered _ rfl hp
  · exact fail_ordered (by decide)

theorem headerValueDiscardWs_ordered (hs : p.state = .headerValueDiscardWs) (hp : Quiet u p) :
    Ordered .preValue u ch (headerValueDiscardWs p ch) := by
  unfold headerValueDiscardWs
  split_ifs
  · exact ordered_nil (by rw [hs]; rfl) (.inl hp.2) hp.1
  · exact goto_ordered _ rfl hp
  · exact goto_ordered _ rfl hp
  · exact headerValueStart_ordered (.inl rfl) hp

theorem bodyIdentity_ordered (hs : p.state = .bodyIdentity) (hp : Quiet u p) :
    Ordered .body u ch (bodyIdentity cfg p) := by
  simp only [bodyIdentity]
  split_ifs
  · exact ordered_after (r := .head) _ _ rfl (by decide) (by decide) (by decide)
      (messageDone_ordered hp)
  · exact ordered_ops (r := .bodyOpen) _ rfl (by rw [hs]; rfl) (.inl hp.2) hp.1 (by decide)
      (by decide)

theorem chunkSizeStart_ordered (hp : Quiet u p) : Ordered .head u ch (chunkSizeStart p ch) := by
  unfold chunkSizeStart
  split
  · exact fail_ordered (by decide)
  · exact ordered_nil rfl (.inl hp.2) hp.1

theorem chunkSize_ordered (hs : p.state = .chunkSize) (hp : Quiet u p) :
    Ordered .head u ch (chunkSize p ch) := by
  unfold chunkSize
  by_cases hcr : ch = CR
  · rw [if_pos hcr]
    exact goto_ordered _ rfl hp
  rw [if_neg hcr]
  cases unhex ch with
  | none =>
    dsimp only
    split_ifs
    · exact goto_ordered _ rfl hp
    · exact fail_ordered (by decide)
  | some v =>
    dsimp only
    split_ifs
    · exact fail_ordered (by decide)
    · exact ordered_nil (by rw [hs]; rfl) (.inl hp.2) hp.1

theorem chunkParameters_ordered (hs : p.state = .chunkParameters) (hp : Quiet u p) :
    Ordered .head u ch (chunkParameters p ch) := by
  unfold chunkParameters
  split_ifs
  · exact goto_ordered _ rfl hp
  · exact ordered_nil (by rw [hs]; rfl) (.inl hp.2) hp.1

theorem chunkSizeAlmostDone_ordered (hp : Quiet u p) :
    Ordered .head u ch (chunkSizeAlmostDone cfg p ch) := by
  simp only [chunkSizeAlmostDone]
  apply strictCheck_ordered
  split_ifs
  · exact ordered_ops (r := .head) _ rfl rfl (.inl hp.2) hp.1 (by decide) (by decide)
  · exact ordered_ops (r := .head) _ rfl rfl (.inl hp.2) hp.1 (by decide) (by decide)

theorem chunkData_ordered (hp : Quiet u p) : Ordered .body u ch (chunkData p) := by
  refine ordered_ops (r := .bodyOpen) _ rfl ?_ (.inl hp.2) hp.1 (by decide) (by decide)
  split_ifs <;> rfl

theorem chunkDataAlmostDone_ordered (hp : Quiet u p) :
    Ordered .body u ch (chunkDataAlmostDone cfg p ch) :=
  strictCheck_ordered _ _
    (ordered_ops (r := .head) _ rfl rfl (.inl hp.2) hp.1 (by decide) (by decide))

theorem chunkDataDone_ordered (hp : Quiet u p) : Ordered .head u ch (chunkDataDone cfg p ch) :=
  strictCheck_ordered _ _
    (ordered_ops (r := .head) _ rfl rfl (.inl hp.2) hp.1 (by decide) (by decide))

theorem dead_ordered (hs : p.state = .dead) (hp : Quiet u p) :
    Ordered .start u ch (if ch = CR ∨ ch = LF then .go p [] else p.fail .CLOSED_CONNECTION) := by
  split_ifs
  · exact ordered_nil (by rw [hs]; rfl) (.inl hp.2) hp.1
  · exact fail_ordered (by decide)

theorem Settled.calm (hp : Settled p) (hf : p.state ≠ .headerField) (hv : p.state ≠ .headerValue) :
    Calm p := by
  rcases hp with h | ⟨h, -⟩ | ⟨h, -⟩
  · exact h
  · exact absurd h hf
  · exact absurd h hv

theorem Settled.errno (hp : Settled p) : p.httpErrno = .OK := by
  rcases hp with h | h | h
  · exact h.2.2
  · exact h.2.2
  · exact h.2

theorem reexecute_ordered (hp : Settled p) (hu : p.upgrade = u) :
    Ordered (phase p.state) u ch (reexecute cfg p ch) := by
  by_cases hf : p.state = .headerField
  · have hg : p.general = 0 := by
      rcases hp with h | ⟨-, h, -⟩ | ⟨h, -⟩
      · exact h.2.1
      · exact h
      · rw [hf] at h
        cases h
    simp only [reexecute, hf]
    exact headerField_ordered hf hg hp.errno hu
  by_cases hv : p.state = .headerValue
  · simp only [reexecute, hv]
    exact headerValue_ordered hv hp.errno hu
  have hquiet : Quiet u p := ⟨hu, hp.calm hf hv⟩
  cases hs : p.state <;> simp only [reexecute, hs]
  case dead => exact dead_ordered hs hquiet
  case startRes => exact startRes_ordered hs hquiet
  case resFirstStatusCode => exact resFirstStatusCode_ordered hs hquiet
  case resStatusCode => exact resStatusCode_ordered hs hquiet
  case resStatusStart => exact resStatusStart_ordered hquiet
  case resStatus => exact resStatus_ordered hs hquiet
  case startReq => exact startReq_ordered hs hquiet
  case reqMethod => exact reqMethod_ordered hs hquiet
  case reqSpacesBeforeUrl => exact reqSpacesBeforeUrl_ordered hs hquiet
  case reqHttpStart => exact reqHttpStart_ordered hs hquiet
  case reqHttpEnd => exact reqHttpEnd_ordered hquiet
  case headerFieldStart => exact headerFieldStart_ordered (.inl rfl) hquiet
  case headerField => exact absurd hs hf
  case headerValueDiscardWs => exact headerValueDiscardWs_ordered hs hquiet
  case headerValueDiscardLws => exact headerValueDiscardLws_ordered hquiet
  case headerValueStart => exact headerValueStart_ordered (.inr rfl) hquiet
  case headerValue => exact absurd hs hv
  case headerValueLws => exact headerValueLws_ordered hquiet
  case chunkSizeStart => exact chunkSizeStart_ordered hquiet
  case chunkSize => exact chunkSize_ordered hs hquiet
  case chunkParameters => exact chunkParameters_ordered hs hquiet
  case chunkSizeAlmostDone => exact chunkSizeAlmostDone_ordered hquiet
  case headersAlmostDone => exact headersAlmostDone_ordered (.inl rfl) hquiet
  case headersDone => exact headersDone_ordered hquiet
  case chunkData => exact chunkData_ordered hquiet
  case chunkDataAlmostDone => exact chunkDataAlmostDone_ordered hquiet
  case chunkDataDone => exact chunkDataDone_ordered hquiet
  case bodyIdentity => exact bodyIdentity_ordered hs hquiet
  case bodyIdentityEof =>
    exact ordered_ops (r := .bodyOpen) _ rfl (by rw [hs]; rfl) (.inl hquiet.2) hquiet.1 (by decide)
      (by decide)
  case messageDone => exact messageDone_ordered hquiet
  -- the constants of the first line and the line ends
  all_goals first
    | exact expect_ordered _ _ rfl hquiet
    | exact httpMajor_ordered _ rfl hquiet
    | exact httpMinor_ordered _ rfl hquiet
    | exact versionChar_ordered _ _ rfl hquiet
    | exact lineFeed_ordered _ rfl hquiet
    | exact urlOpen_ordered hquiet
    | exact urlRest_ordered hquiet

theorem byte_ordered (cfg : Config) (p : HttpParser) (ch : UInt8) (hp : Settled p) :
    Ordered (phase p.state) p.upgrade ch (byte cfg p ch) := by
  unfold byte
  split_ifs
  · apply countHeaderSize_ordered
    intro n
    exact reexecute_ordered hp rfl
  · exact reexecute_ordered hp rfl

end Lamb.HttpTrace
