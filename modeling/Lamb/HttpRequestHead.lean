import Lamb.HttpHeaderLines
import Lamb.HttpTokenCuts

/-!
# The header lines of a request

Between the first line and the blank line the parser does not look at the type of the
message or at its first line, so that a request parser goes through the same states there as
a response parser. The state alone decides which tokens a byte marks and reports: over a
block of lines the callbacks set one header a line.
-/

set_option autoImplicit false

namespace Lamb.HttpRequestHead
open Lamb.ByteString Lamb.Http Lamb.HttpUrl Lamb.HttpMachine Lamb.HttpParser Lamb.Tokens
open Lamb.HttpResponseHead Lamb.HttpHeaderNames Lamb.HttpHeaderValues Lamb.HttpHeaderLines

variable {cfg : Config}

/-! ## Requests and responses -/

def asRequest (i : Info) (p : HttpMachine.HttpParser) : HttpMachine.HttpParser :=
  { p with
    type := .request
    method := i.method
    httpMajor := i.httpMajor
    httpMinor := i.httpMinor
    statusCode := i.statusCode }

def mapOutcome (f : HttpMachine.HttpParser → HttpMachine.HttpParser) : Outcome → Outcome
  | .go p ops => .go (f p) ops
  | .leave p ops => .leave (f p) ops
  | .error e p ops => .error e (f p) ops

section Request

variable (i : Info) (p : HttpMachine.HttpParser)

theorem map_after (f : HttpMachine.HttpParser → HttpMachine.HttpParser) (ops : List Op)
    (o : Outcome) : (mapOutcome f o).after ops = mapOutcome f (o.after ops) := by
  cases o <;> rfl

theorem count_request (v : ℕ) (k : HttpMachine.HttpParser → Outcome)
    (h : ∀ n, k (asRequest i { p with nread := n }) =
      mapOutcome (asRequest i) (k { p with nread := n })) :
    countHeaderSize cfg (asRequest i p) v k =
      mapOutcome (asRequest i) (countHeaderSize cfg p v k) := by
  have hk := h ((p.nread+v) % 2^32)
  simp only [countHeaderSize]
  by_cases hover : cfg.maxHeaderSize < (p.nread+v) % 2^32
  · rw [if_pos hover]
    exact if_pos hover
  · rw [if_neg hover, ← hk]
    exact if_neg hover

theorem fieldChar_request (c ch : UInt8) :
    fieldChar (asRequest i p) c ch = asRequest i (fieldChar p c ch) := by
  have hstate : (asRequest i p).headerState = p.headerState := rfl
  simp only [fieldChar, hstate]
  split <;> first
    | rfl
    | split_ifs <;> rfl

theorem valueChar_request (ch : UInt8) :
    valueChar (asRequest i p) ch = (valueChar p ch).map (asRequest i) := by
  have hstate : (asRequest i p).headerState = p.headerState := rfl
  have hlength : (asRequest i p).contentLength = p.contentLength := rfl
  simp only [valueChar, contentLengthChar, connectionTokenEnd, hstate, hlength]
  split <;> first
    | rfl
    | split_ifs <;> rfl

theorem commitHeader_request :
    (asRequest i p).commitHeader = asRequest i p.commitHeader := by
  have hstate : (asRequest i p).headerState = p.headerState := rfl
  simp only [HttpMachine.HttpParser.commitHeader, hstate]
  split <;> rfl

theorem headerFieldStart_request {ch : UInt8} (hch : ch ≠ LF) :
    headerFieldStart cfg (asRequest i p) ch =
      mapOutcome (asRequest i) (headerFieldStart cfg p ch) := by
  simp only [headerFieldStart, hch, if_false]
  split_ifs <;> rfl

theorem headerField_request (ch : UInt8) :
    headerField cfg (asRequest i p) ch = mapOutcome (asRequest i) (headerField cfg p ch) := by
  unfold headerField
  dsimp only
  by_cases hc : token cfg ch = 0
  · rw [if_pos hc, if_pos hc]
    refine count_request i { p with segment := 0 } p.segment _ fun q => ?_
    split_ifs <;> rfl
  · rw [if_neg hc, if_neg hc, fieldChar_request]
    rfl

theorem headerValueStart_request (ch : UInt8) :
    headerValueStart (asRequest i p) ch = mapOutcome (asRequest i) (headerValueStart p ch) := by
  have hstate : (asRequest i p).headerState = p.headerState := rfl
  have hflags : (asRequest i p).flags = p.flags := rfl
  simp only [headerValueStart, hstate, hflags]
  split <;> first
    | rfl
    | split_ifs <;> rfl

theorem headerValueDiscardWs_request (ch : UInt8) :
    headerValueDiscardWs (asRequest i p) ch =
      mapOutcome (asRequest i) (headerValueDiscardWs p ch) := by
  simp only [headerValueDiscardWs, headerValueStart_request]
  split_ifs <;> rfl

theorem headerValue_request (ch : UInt8) :
    headerValue cfg (asRequest i p) ch = mapOutcome (asRequest i) (headerValue cfg p ch) := by
  have hgeneral : (asRequest i p).general = p.general := rfl
  let done : HttpMachine.HttpParser :=
    { p with state := .headerAlmostDone, segment := 0, general := 0 }
  unfold headerValue
  dsimp only
  rw [hgeneral, valueChar_request]
  by_cases hskip : p.general ≠ 0 ∧ p.general = cfg.maxHeaderSize
  · rw [if_pos hskip, if_pos hskip]
    rfl
  rw [if_neg hskip, if_neg hskip]
  by_cases hcr : ch = CR
  · rw [if_pos hcr, if_pos hcr, ← map_after]
    exact congrArg (Outcome.after [.report .headerValue false])
      (count_request i done p.segment (fun p => .go p []) fun _ => rfl)
  rw [if_neg hcr, if_neg hcr]
  by_cases hlf : ch = LF
  · rw [if_pos hlf, if_pos hlf]
    refine count_request i done p.segment _ fun q => ?_
    rw [← map_after]
    simp only [lineFeed, if_pos hlf]
    rfl
  rw [if_neg hlf, if_neg hlf]
  split_ifs
  · rfl
  · cases valueChar p ch <;> rfl

theorem headerValueLws_request {ch : UInt8} (hch : ch ≠ LF) :
    headerValueLws cfg (asRequest i p) ch =
      mapOutcome (asRequest i) (headerValueLws cfg p ch) := by
  have hstate : (asRequest i p).headerState = p.headerState := rfl
  unfold headerValueLws
  rw [hstate]
  by_cases hblank : ch = (' ' : Char) ∨ ch = ('\t' : Char)
  · rw [if_pos hblank, if_pos hblank]
    by_cases hnum : p.headerState = .contentLengthNum
    · simp only [if_pos hnum]
      exact headerValueStart_request i
        { p with state := .headerValueStart, headerState := .contentLengthWs } ch
    · simp only [if_neg hnum]
      exact headerValueStart_request i { p with state := .headerValueStart } ch
  · rw [if_neg hblank, if_neg hblank, commitHeader_request]
    exact headerFieldStart_request i { p.commitHeader with state := .headerFieldStart } hch

theorem headerValueDiscardLws_request {ch : UInt8} (hch : ch ≠ LF) :
    headerValueDiscardLws cfg (asRequest i p) ch =
      mapOutcome (asRequest i) (headerValueDiscardLws cfg p ch) := by
  have hstate : (asRequest i p).headerState = p.headerState := rfl
  unfold headerValueDiscardLws
  rw [hstate]
  split_ifs
  · rfl
  · rfl
  · rw [commitHeader_request, ← map_after]
    exact congrArg (Outcome.after [.mark .headerValue, .report .headerValue false])
      (headerFieldStart_request i { p.commitHeader with state := .headerFieldStart } hch)

def lineStates : List State :=
  [.headerField, .headerValueDiscardWs, .headerValueDiscardWsAlmostDone, .headerValue,
    .headerAlmostDone]

def startStates : List State := [.headerFieldStart, .headerValueDiscardLws, .headerValueLws]

theorem reexecute_request {ch : UInt8}
    (h : p.state ∈ lineStates ∨ p.state ∈ startStates ∧ ch ≠ LF) :
    reexecute cfg (asRequest i p) ch = mapOutcome (asRequest i) (reexecute cfg p ch) := by
  have hstate : (asRequest i p).state = p.state := rfl
  rw [reexecute, reexecute, hstate]
  simp only [lineStates, startStates, List.mem_cons, List.not_mem_nil, or_false] at h
  rcases h with (h | h | h | h | h) | ⟨h | h | h, hch⟩ <;> rw [h]
  · exact headerField_request i p ch
  · exact headerValueDiscardWs_request i p ch
  · simp only [expect, strictCheck]
    split_ifs <;> rfl
  · exact headerValue_request i p ch
  · simp only [lineFeed]
    split_ifs <;> rfl
  · exact headerFieldStart_request i p hch
  · exact headerValueDiscardLws_request i p hch
  · exact headerValueLws_request i p hch

theorem byte_request {ch : UInt8} (h : p.state ∈ lineStates ∨ p.state ∈ startStates ∧ ch ≠ LF) :
    byte cfg (asRequest i p) ch = mapOutcome (asRequest i) (byte cfg p ch) := by
  have hsame : (parsingHeader (asRequest i p).state = true ∧ (asRequest i p).segment = 0) ↔
      (parsingHeader p.state = true ∧ p.segment = 0) := Iff.rfl
  unfold byte
  by_cases hcount : parsingHeader p.state = true ∧ p.segment = 0
  · rw [if_pos hcount, if_pos (hsame.mpr hcount)]
    exact count_request i p 1 _ fun n => reexecute_request i { p with nread := n } h
  · rw [if_neg hcount, if_neg (mt hsame.mp hcount)]
    exact reexecute_request i p h

end Request

/-! ## The tokens of a header block -/

def startLine (ch : UInt8) : State × List Op :=
  if ch = CR then (.headersAlmostDone, []) else (.headerField, [.mark .headerField])

def nextHeader : State → UInt8 → State × List Op
  | .headerFieldStart, ch => startLine ch
  | .headerField, ch =>
    if ch = (':' : Char) then (.headerValueDiscardWs, [.report .headerField false])
    else (.headerField, [])
  | .headerValueDiscardWs, ch =>
    if isBlank ch then (.headerValueDiscardWs, [])
    else if ch = CR then (.headerValueDiscardWsAlmostDone, [])
    else if ch = LF then (.headerValueDiscardLws, [])
    else (.headerValue, [.mark .headerValue])
  | .headerValueDiscardWsAlmostDone, _ => (.headerValueDiscardLws, [])
  | .headerValueDiscardLws, ch =>
    if isBlank ch then (.headerValueDiscardWs, [])
    else
      ((startLine ch).1, [.mark .headerValue, .report .headerValue false] ++ (startLine ch).2)
  | .headerValue, ch =>
    if ch = CR then (.headerAlmostDone, [.report .headerValue false])
    else if ch = LF then (.headerValueLws, [.report .headerValue false])
    else (.headerValue, [])
  | .headerAlmostDone, _ => (.headerValueLws, [])
  | .headerValueLws, ch =>
    if isBlank ch then (.headerValue, [.mark .headerValue]) else startLine ch
  | s, _ => (s, [])

section Step

variable {n : ℕ} {p q : HttpMachine.HttpParser} {ch : UInt8} {ops : List Op}

theorem blank_iff (c : UInt8) : isBlank c = true ↔ c = (' ' : Char) ∨ c = ('\t' : Char) := by
  simp only [isBlank, Bool.or_eq_true, decide_eq_true_eq]

theorem headersAlmostDone_ends (h : headersAlmostDone cfg p ch = .go q ops) :
    ¬ ∀ op ∈ ops, HeadOp op := by
  intro hops
  have hafter : ∀ (o : Outcome) (e : Event), o.after [.notify e] = .go q ops →
      e = .messageBegin := by
    intro o e ho
    cases o with
    | go r rest =>
      obtain ⟨-, rfl⟩ := Outcome.go.inj ho
      exact hops (.notify e) (.head rest)
    | leave r rest => cases ho
    | error e' r rest => cases ho
  unfold headersAlmostDone strictCheck at h
  split_ifs at h
  · cases h
  · cases hafter _ _ h
  · cases h
  · cases hafter _ _ h

theorem headerFieldStart_step (hp : Counted cfg n p)
    (hs : p.state ≠ .headerField ∧ p.state ≠ .headerValue)
    (h : headerFieldStart cfg p ch = .go q ops) (hops : ∀ op ∈ ops, HeadOp op) :
    ch ≠ LF ∧ (q.state, ops) = startLine ch ∧ Reading cfg n q := by
  unfold headerFieldStart at h
  split_ifs at h with hcr hlf htoken
  · obtain ⟨rfl, rfl⟩ := Outcome.go.inj h
    refine ⟨by rw [hcr]; decide, by rw [startLine, if_pos hcr],
      hp.reading hs (hp.same rfl) rfl rfl rfl rfl⟩
  · exact absurd hops (headersAlmostDone_ends h)
  · cases h
  · obtain ⟨rfl, rfl⟩ := Outcome.go.inj h
    exact ⟨hlf, by rw [startLine, if_neg hcr], hp.reading hs (hp.same rfl) rfl rfl rfl rfl⟩

theorem headerField_step (hp : Counted cfg n p) (hs : p.state = .headerField)
    (h : headerField cfg p ch = .go q ops) :
    (q.state, ops) = nextHeader p.state ch ∧ Reading cfg n q := by
  have hroom := hp.room
  have hword := hp.word
  have hahead := hp.ahead
  unfold headerField at h
  dsimp only at h
  by_cases htoken : token cfg ch = 0
  · have hmod : (p.nread+p.segment) % 2^32 = p.nread+p.segment := Nat.mod_eq_of_lt (by omega)
    rw [if_pos htoken] at h
    simp only [countHeaderSize, hmod] at h
    rw [if_neg (by omega)] at h
    split_ifs at h with hcolon
    · obtain ⟨rfl, rfl⟩ := Outcome.go.inj h
      refine ⟨by rw [hs, nextHeader, if_pos hcolon], ⟨hp.same rfl, ?_, ?_, ?_, fun _ _ => rfl, rfl⟩⟩
      · simp only [spent]
        omega
      · simp only [spent]
        omega
      · simp only [spent]
        omega
    · cases h
  · have hcolon : ch ≠ (':' : Char) := by
      rintro rfl
      refine htoken ?_
      cases hstrict : cfg.strict <;> simp only [token, hstrict] <;> rfl
    rw [if_neg htoken] at h
    obtain ⟨i, hst, heq⟩ := fieldChar_eq p (token cfg ch) ch
    rw [heq] at h
    obtain ⟨rfl, rfl⟩ := Outcome.go.inj h
    refine ⟨by rw [hs, nextHeader, if_neg hcolon], ⟨hp.same rfl, ?_, ?_, ?_, ?_, ?_⟩⟩
    · simp only [spent]
      omega
    · simp only [spent]
      omega
    · simp only [spent]
      omega
    · exact fun h1 => absurd hs h1
    · rw [hs]
      rfl

theorem headerValueStart_step (hp : Counted cfg n p)
    (hs : p.state ≠ .headerField ∧ p.state ≠ .headerValue)
    (h : headerValueStart p ch = .go q ops) :
    (q.state, ops) = (State.headerValue, [Op.mark .headerValue]) ∧ Reading cfg n q := by
  have hstart : ∀ (hst : HeaderState) (length : ℕ) (up hasLength : Bool),
      Reading cfg n { p with
        state := .headerValue
        index := 0
        headerState := hst
        contentLength := length
        flags := { p.flags with upgrade := up, contentlength := hasLength } } :=
    fun _ _ _ _ => hp.reading hs (hp.same rfl) rfl rfl rfl rfl
  unfold headerValueStart at h
  dsimp only at h
  split at h
  case h_3 =>
    split_ifs at h
    obtain ⟨rfl, rfl⟩ := Outcome.go.inj h
    exact ⟨rfl, hstart _ _ _ true⟩
  all_goals
    obtain ⟨rfl, rfl⟩ := Outcome.go.inj h
    exact ⟨rfl, hstart _ _ _ p.flags.contentlength⟩

theorem headerValueDiscardWs_step (hp : Counted cfg n p) (hs : p.state = .headerValueDiscardWs)
    (h : headerValueDiscardWs p ch = .go q ops) :
    (q.state, ops) = nextHeader p.state ch ∧ Reading cfg n q := by
  have hhome : p.state ≠ .headerField ∧ p.state ≠ .headerValue := by
    rw [hs]
    decide
  rw [hs, nextHeader]
  unfold headerValueDiscardWs at h
  split_ifs at h with hblank hcr hlf
  · obtain ⟨rfl, rfl⟩ := Outcome.go.inj h
    rw [if_pos ((blank_iff ch).mpr hblank), hs]
    exact ⟨rfl, hp.reading hhome hp.toSteady rfl rfl rfl (by rw [hs]; rfl)⟩
  all_goals rw [if_neg (mt (blank_iff ch).mp hblank)]
  · obtain ⟨rfl, rfl⟩ := Outcome.go.inj h
    rw [if_pos hcr]
    exact ⟨rfl, hp.reading hhome (hp.same rfl) rfl rfl rfl rfl⟩
  all_goals rw [if_neg hcr]
  · obtain ⟨rfl, rfl⟩ := Outcome.go.inj h
    rw [if_pos hlf]
    exact ⟨rfl, hp.reading hhome (hp.same rfl) rfl rfl rfl rfl⟩
  · rw [if_neg hlf]
    exact headerValueStart_step hp hhome h

theorem headerValueDiscardLws_step (hp : Counted cfg n p) (hs : p.state = .headerValueDiscardLws)
    (h : headerValueDiscardLws cfg p ch = .go q ops) (hops : ∀ op ∈ ops, HeadOp op) :
    ch ≠ LF ∧ (q.state, ops) = nextHeader p.state ch ∧ Reading cfg n q := by
  have hhome : p.state ≠ .headerField ∧ p.state ≠ .headerValue := by
    rw [hs]
    decide
  rw [hs, nextHeader]
  unfold headerValueDiscardLws at h
  split_ifs at h with hblank hlength
  · obtain ⟨rfl, rfl⟩ := Outcome.go.inj h
    rw [if_pos ((blank_iff ch).mpr hblank)]
    refine ⟨?_, rfl, hp.reading hhome (hp.same rfl) rfl rfl rfl rfl⟩
    rcases hblank with rfl | rfl <;> decide
  · cases h
  · rw [if_neg (mt (blank_iff ch).mp hblank)]
    cases hstart : headerFieldStart cfg { p.commitHeader with state := .headerFieldStart } ch with
    | go r rest =>
      rw [hstart] at h
      obtain ⟨rfl, rfl⟩ := Outcome.go.inj h
      obtain ⟨hlf, hnext, hq⟩ := headerFieldStart_step (commitHeader_counted hp hhome)
        ⟨nofun, nofun⟩ hstart fun op hop => hops op (List.mem_append_right _ hop)
      exact ⟨hlf, by rw [← hnext], hq⟩
    | leave r rest =>
      rw [hstart] at h
      cases h
    | error e r rest =>
      rw [hstart] at h
      cases h

theorem headerValueLws_step (hp : Counted cfg n p) (hs : p.state = .headerValueLws)
    (h : headerValueLws cfg p ch = .go q ops) (hops : ∀ op ∈ ops, HeadOp op) :
    ch ≠ LF ∧ (q.state, ops) = nextHeader p.state ch ∧ Reading cfg n q := by
  have hhome : p.state ≠ .headerField ∧ p.state ≠ .headerValue := by
    rw [hs]
    decide
  have h0 : p.segment = 0 := hp.home hhome.1 hhome.2
  rw [hs, nextHeader]
  unfold headerValueLws at h
  by_cases hblank : ch = (' ' : Char) ∨ ch = ('\t' : Char)
  · rw [if_pos hblank] at h
    rw [if_pos ((blank_iff ch).mpr hblank)]
    have hstart : ∀ hst : HeaderState, Counted cfg n { p with
        state := .headerValueStart
        headerState := hst } := fun _ =>
      ⟨hp.same rfl, hp.room, hp.word, hp.ahead, fun _ _ => h0⟩
    refine ⟨by rcases hblank with rfl | rfl <;> decide, ?_⟩
    dsimp only at h
    split_ifs at h
    · exact headerValueStart_step (hstart .contentLengthWs) ⟨nofun, nofun⟩ h
    · exact headerValueStart_step (hstart p.headerState) ⟨nofun, nofun⟩ h
  · rw [if_neg hblank] at h
    rw [if_neg (mt (blank_iff ch).mp hblank)]
    exact headerFieldStart_step (commitHeader_counted hp hhome) ⟨nofun, nofun⟩ h hops

theorem headerValue_step (hp : Counted cfg n p) (hs : p.state = .headerValue)
    (h : headerValue cfg p ch = .go q ops) :
    (q.state, ops) = nextHeader p.state ch ∧ Reading cfg n q := by
  have hroom := hp.room
  have hword := hp.word
  have hahead := hp.ahead
  have hskip : ¬ (p.general ≠ 0 ∧ p.general = cfg.maxHeaderSize) := by omega
  have hmod : (p.nread+p.segment) % 2^32 = p.nread+p.segment := Nat.mod_eq_of_lt (by omega)
  have hdone : ∀ s, parsingHeader s = true → Reading cfg n { p with
      state := s
      segment := 0
      general := 0
      nread := p.nread+p.segment } := by
    intro s hheading
    refine ⟨hp.same rfl, ?_, ?_, ?_, fun _ _ => rfl, hheading⟩
    · simp only [spent]
      omega
    · simp only [spent]
      omega
    · simp only [spent]
      omega
  rw [hs, nextHeader]
  unfold headerValue at h
  dsimp only at h
  rw [if_neg hskip] at h
  split_ifs at h with hcr hlf hchar
  · simp only [countHeaderSize, hmod] at h
    rw [if_neg (by omega)] at h
    obtain ⟨rfl, rfl⟩ := Outcome.go.inj h
    rw [if_pos hcr]
    exact ⟨rfl, hdone .headerAlmostDone rfl⟩
  · simp only [countHeaderSize, hmod, lineFeed, if_pos hlf] at h
    rw [if_neg (by omega)] at h
    obtain ⟨rfl, rfl⟩ := Outcome.go.inj h
    rw [if_neg hcr, if_pos hlf]
    exact ⟨rfl, hdone .headerValueLws rfl⟩
  · cases h
  · rw [if_neg hcr, if_neg hlf]
    cases hvalue : valueChar p ch with
    | none =>
      rw [hvalue] at h
      cases h
    | some r =>
      rw [hvalue] at h
      obtain ⟨rfl, rfl⟩ := Outcome.go.inj h
      have hsame := valueChar_counts hvalue
      have hrun : runAhead cfg p ≤ p.general+1 := by
        unfold runAhead
        split_ifs <;> omega
      have hr := hsame.steady hp.toSteady
      refine ⟨by rw [hsame.state, hs], ⟨⟨hr.type, hr.method, hr.errno, hr.upgrade, hr.skipbody,
        hr.trailing⟩, ?_, ?_, ?_, ?_, ?_⟩⟩
      · simp only [spent, hsame.nread]
        omega
      · simp only [spent, hsame.nread]
        omega
      · simp only [spent, hsame.nread]
        omega
      · exact fun _ h2 => absurd (hsame.state.trans hs) h2
      · rw [hsame.state, hs]
        rfl

/-- A byte of a header block that is no error: a request parser takes it as well, and the
state says what is done to the tokens. -/
theorem header_step (i : Info) (hp : Reading cfg (n+1) p)
    (hs : p.state ∈ lineStates ∨ p.state ∈ startStates) (h : byte cfg p ch = .go q ops)
    (hops : ∀ op ∈ ops, HeadOp op) :
    byte cfg (asRequest i p) ch = .go (asRequest i q) ops ∧
      (q.state, ops) = nextHeader p.state ch ∧ Reading cfg n q := by
  obtain ⟨p', hbyte, hp', hview⟩ := byte_counted hp ch
  have hstate : p'.state = p.state := congrArg View.state hview
  have hgo := hbyte.symm.trans h
  have hrequest : ∀ hline : p.state ∈ lineStates ∨ p.state ∈ startStates ∧ ch ≠ LF,
      byte cfg (asRequest i p) ch = .go (asRequest i q) ops := fun hline => by
    rw [byte_request i p hline, h]
    rfl
  rw [← hstate] at hs hrequest ⊢
  rw [reexecute] at hgo
  simp only [lineStates, startStates, List.mem_cons, List.not_mem_nil, or_false] at hs hrequest
  rcases hs with (hs | hs | hs | hs | hs) | hs | hs | hs
  · rw [hs] at hgo
    exact ⟨hrequest (by simp [hs]), headerField_step hp' hs hgo⟩
  · rw [hs] at hgo
    exact ⟨hrequest (by simp [hs]), headerValueDiscardWs_step hp' hs hgo⟩
  · rw [hs] at hgo
    simp only [expect, strictCheck] at hgo
    split_ifs at hgo
    · cases hgo
    · obtain ⟨rfl, rfl⟩ := Outcome.go.inj hgo
      exact ⟨hrequest (by simp [hs]), by rw [hs, nextHeader],
        hp'.reading (by rw [hs]; decide) (hp'.same rfl) rfl rfl rfl rfl⟩
  · rw [hs] at hgo
    exact ⟨hrequest (by simp [hs]), headerValue_step hp' hs hgo⟩
  · rw [hs] at hgo
    simp only [lineFeed] at hgo
    split_ifs at hgo
    · obtain ⟨rfl, rfl⟩ := Outcome.go.inj hgo
      exact ⟨hrequest (by simp [hs]), by rw [hs, nextHeader],
        hp'.reading (by rw [hs]; decide) (hp'.same rfl) rfl rfl rfl rfl⟩
    · cases hgo
  · rw [hs] at hgo
    obtain ⟨hlf, hnext, hq⟩ := headerFieldStart_step hp' (by rw [hs]; decide) hgo hops
    exact ⟨hrequest (by simp [hs, hlf]), by rw [hs, hnext, nextHeader], hq⟩
  · rw [hs] at hgo
    obtain ⟨hlf, hnext, hq⟩ := headerValueDiscardLws_step hp' hs hgo hops
    exact ⟨hrequest (by simp [hs, hlf]), hnext, hq⟩
  · rw [hs] at hgo
    obtain ⟨hlf, hnext, hq⟩ := headerValueLws_step hp' hs hgo hops
    exact ⟨hrequest (by simp [hs, hlf]), hnext, hq⟩

end Step

/-! ## The end of a message -/

def Unfinished (cfg : Config) (bs : Bytes) (m : Call RequestSink) : Prop :=
  ∀ as, as <+: bs → as ≠ bs →
    (HttpCalls.read cfg (requestSettings cfg) as m).buffers.data.finished = false

theorem unfinished_nil (m : Call RequestSink) : Unfinished cfg [] m :=
  fun _ has hne => absurd (List.prefix_nil.mp has) hne

theorem Unfinished.append {as bs : Bytes} {m : Call RequestSink} (h : Unfinished cfg as m)
    (h' : Unfinished cfg bs (HttpCalls.read cfg (requestSettings cfg) as m)) :
    Unfinished cfg (as ++ bs) m := by
  intro w hw hne
  by_cases hshort : w <+: as ∧ w ≠ as
  · exact h w hshort.1 hshort.2
  · have has : as <+: w := by
      rcases List.prefix_or_prefix_of_prefix hw (List.prefix_append as bs) with hpre | hpre
      · have hwas : w = as := by_contra fun hwas => hshort ⟨hpre, hwas⟩
        exact hwas ▸ List.prefix_refl w
      · exact hpre
    obtain ⟨v, rfl⟩ := has
    rw [HttpCalls.read_append]
    exact h' v ((List.prefix_append_right_inj as).mp hw) fun hv => hne (by rw [hv])

theorem unfinished_byte {ch : UInt8} {m : Call RequestSink} (h : m.buffers.data.finished = false) :
    Unfinished cfg [ch] m := by
  intro as has hne
  obtain rfl : as = [] := by
    cases as with
    | nil => rfl
    | cons c rest =>
      obtain ⟨rfl, hrest⟩ := List.cons_prefix_cons.mp has
      exact absurd (by rw [List.prefix_nil.mp hrest]) hne
  exact h

/-! ## The headers that the callbacks set -/

inductive HeaderRun (cfg : Config) : HttpMachine.HttpParser → Bytes → HttpMachine.HttpParser → Prop
  | nil (p : HttpMachine.HttpParser) : HeaderRun cfg p [] p
  | cons {p q r : HttpMachine.HttpParser} {ch : UInt8} {bs : Bytes}
      (h : byte cfg p ch = .go q (nextHeader p.state ch).2)
      (hs : q.state = (nextHeader p.state ch).1) (rest : HeaderRun cfg q bs r) :
      HeaderRun cfg p (ch::bs) r

def InBlock (s : State) : Prop :=
  (s ∈ lineStates ∨ s ∈ startStates) ∨ s = .headersAlmostDone

theorem nextHeader_inBlock {s : State} (hs : s ∈ lineStates ∨ s ∈ startStates) (ch : UInt8) :
    InBlock (nextHeader s ch).1 := by
  simp only [lineStates, startStates, List.mem_cons, List.not_mem_nil, or_false] at hs
  rcases hs with (rfl | rfl | rfl | rfl | rfl) | rfl | rfl | rfl <;>
    simp only [nextHeader, startLine, apply_ite Prod.fst, InBlock, lineStates, startStates] <;>
    (try split_ifs) <;> simp

/-- What a response parser passes over in a header block, a request parser passes over. -/
theorem request_run (i : Info) {p q : HttpMachine.HttpParser} {bs : Bytes} {n : ℕ}
    (h : HeadRun cfg p bs q) (hp : Reading cfg (n+bs.length) p) (hs : InBlock p.state) :
    HeaderRun cfg (asRequest i p) bs (asRequest i q) := by
  induction h with
  | nil p => exact .nil _
  | @cons p q r ch bs ops hbyte hops rest ih =>
    rw [List.length_cons, ← Nat.add_assoc] at hp
    rcases hs with hs | hend
    · obtain ⟨hgo, hnext, hq⟩ := header_step i hp hs hbyte hops
      obtain ⟨hstate, rfl⟩ := Prod.mk.inj hnext
      exact .cons hgo hstate (ih hq (hstate ▸ nextHeader_inBlock hs ch))
    · obtain ⟨p', hcounted, -, hview⟩ := byte_counted hp ch
      have hstate : p'.state = .headersAlmostDone := (congrArg View.state hview).trans hend
      rw [hcounted, reexecute, hstate] at hbyte
      exact absurd hops (headersAlmostDone_ends hbyte)

def HeaderOp : Op → Prop
  | .mark _ => True
  | .report t _ => t = .headerField ∨ t = .headerValue
  | .notify _ => False

theorem nextHeader_ops (s : State) (ch : UInt8) : ∀ op ∈ (nextHeader s ch).2, HeaderOp op := by
  unfold nextHeader startLine
  split <;> (try split_ifs) <;> simp [HeaderOp]

section Sink

theorem runOp_header (cfg : Config) (ch : UInt8) (i j : Info) {op : Op} (hop : HeaderOp op)
    (b : Buffers Token RequestSink) :
    runOp (requestSettings cfg) i ch b op = ((runOp (requestSettings cfg) j ch b op).1, none) := by
  cases op with
  | mark t =>
    simp only [runOp]
    split <;> rfl
  | report t inclusive =>
    simp only [runOp]
    rcases hop with rfl | rfl <;> split <;> rfl
  | notify e => exact absurd hop id

theorem runOps_header (cfg : Config) (ch : UInt8) (i j : Info) (ops : List Op)
    (hops : ∀ op ∈ ops, HeaderOp op) (b : Buffers Token RequestSink) :
    runOps (requestSettings cfg) i ch ops b =
      ((runOps (requestSettings cfg) j ch ops b).1, none) := by
  induction ops generalizing b with
  | nil => rfl
  | cons op ops ih =>
    have hop := hops op (.head ops)
    have hrest := fun c => ih (fun op' h => hops op' (.tail op h)) c
    have hj := runOp_header cfg ch j j hop b
    rw [runOps, runOps, runOp_header cfg ch i j hop b]
    generalize runOp (requestSettings cfg) j ch b op = x at hj ⊢
    obtain ⟨c, failed⟩ := x
    obtain rfl : failed = none := congrArg Prod.snd hj
    exact hrest c

def tokenStep (cfg : Config) (x : State × Buffers Token RequestSink) (ch : UInt8) :
    State × Buffers Token RequestSink :=
  ((nextHeader x.1 ch).1,
    (runOps (requestSettings cfg) (info (.init .request)) ch (nextHeader x.1 ch).2 x.2).1.extend ch)

/-- What the call makes of a header block depends on the state it starts in, and nothing
else of the parser. -/
theorem HeaderRun.read {p q : HttpMachine.HttpParser} {bs : Bytes} (h : HeaderRun cfg p bs q)
    (b : Buffers Token RequestSink) (k : ℕ) :
    HttpCalls.read cfg (requestSettings cfg) bs ⟨p, b, true, k⟩ =
        ⟨q, (bs.foldl (tokenStep cfg) (p.state, b)).2, true, k+bs.length⟩ ∧
      (bs.foldl (tokenStep cfg) (p.state, b)).1 = q.state := by
  induction h generalizing b k with
  | nil p => exact ⟨rfl, rfl⟩
  | @cons p q r ch bs hbyte hstate _ ih =>
    have hone : Call.step cfg (requestSettings cfg) ⟨p, b, true, k⟩ ch =
        ⟨q, (tokenStep cfg (p.state, b) ch).2, true, k+1⟩ := by
      have hrun := runOps_header cfg ch (info q) (info (.init .request))
        (nextHeader p.state ch).2 (nextHeader_ops p.state ch) b
      simp only [Call.step, hbyte, hrun, Bool.not_true, Bool.false_eq_true, if_false]
      rfl
    have hnext : (q.state, (tokenStep cfg (p.state, b) ch).2) = tokenStep cfg (p.state, b) ch :=
      Prod.ext hstate rfl
    obtain ⟨hread, hlast⟩ := ih (tokenStep cfg (p.state, b) ch).2 (k+1)
    rw [hnext] at hread hlast
    refine ⟨?_, hlast⟩
    change HttpCalls.read cfg (requestSettings cfg) bs (Call.step cfg _ _ ch) = _
    rw [hone, hread, List.length_cons, Nat.add_assoc, Nat.add_comm 1]
    rfl

theorem HeaderRun.take {p q : HttpMachine.HttpParser} {as bs : Bytes}
    (h : HeaderRun cfg p (as ++ bs) q) : ∃ r, HeaderRun cfg p as r := by
  induction as generalizing p with
  | nil => exact ⟨p, .nil p⟩
  | cons ch as ih =>
    cases h with
    | cons hbyte hstate rest =>
      obtain ⟨r, hr⟩ := ih rest
      exact ⟨r, .cons hbyte hstate hr⟩

theorem tokens_unfinished (bs : Bytes) (x : State × Buffers Token RequestSink) :
    (bs.foldl (tokenStep cfg) x).2.data.finished = x.2.data.finished := by
  induction bs generalizing x with
  | nil => rfl
  | cons ch bs ih =>
    refine (ih _).trans ?_
    refine HttpTokenCuts.request_finishes.ops (info (.init .request)) ch _ (fun hmem => ?_) x.2
    exact nextHeader_ops x.1 ch _ hmem

theorem HeaderRun.unfinished {p q : HttpMachine.HttpParser} {bs : Bytes} (h : HeaderRun cfg p bs q)
    {b : Buffers Token RequestSink} (hb : b.data.finished = false) (k : ℕ) :
    Unfinished cfg bs ⟨p, b, true, k⟩ := by
  rintro as ⟨rest, rfl⟩ -
  obtain ⟨r, hr⟩ := h.take
  rw [(hr.read b k).1]
  exact (tokens_unfinished as _).trans hb

end Sink

/-! ## Lines -/

/-- `i.first << ":" << i.second << "\r\n"`. -/
def fieldLine (h : Bytes × Bytes) : Bytes := h.1 ++ ascii ":" ++ h.2 ++ crlf

theorem fieldLine_split (h : Bytes × Bytes) : fieldLine h =
    (h.1 ++ ascii ":") ++ (h.2.takeWhile isBlank ++ (bare h.2 ++ crlf)) := by
  have hv : h.2.takeWhile isBlank ++ bare h.2 = h.2 := List.takeWhile_append_dropWhile
  rw [← List.append_assoc (h.2.takeWhile isBlank), hv, fieldLine, List.append_assoc]

def withHeader (d : RequestSink) (h : Bytes × Bytes) : RequestSink :=
  { d with
    field := h.1
    data := d.data.setHeader h.1 (bare h.2) }

inductive Between : State × Buffers Token RequestSink → RequestSink → Prop
  | first (d : RequestSink) : Between (.headerFieldStart, .clear d) d
  | valued (d : RequestSink) : Between (.headerValueLws, .clear d) d
  | empty (d : RequestSink) (k : Bytes) :
      Between (.headerValueDiscardLws, .clear { d with field := k }) (withHeader d (k, []))

section Lines

variable {x : State × Buffers Token RequestSink} {d : RequestSink} {h : Bytes × Bytes}

theorem between_step (hx : Between x d) {ch : UInt8} (hch : nonblank ch) :
    tokenStep cfg x ch = ((startLine ch).1,
      (runOps (requestSettings cfg) (info (.init .request)) ch (startLine ch).2
        (.clear d)).1.extend ch) := by
  have hblank : ¬ isBlank ch = true := fun h0 => not_or.mpr hch ((blank_iff ch).mp h0)
  cases hx with
  | first d => rfl
  | valued d =>
    have hnext : nextHeader .headerValueLws ch = startLine ch := by
      rw [nextHeader, if_neg hblank]
    rw [tokenStep, hnext]
  | empty d k =>
    have hnext : nextHeader .headerValueDiscardLws ch = ((startLine ch).1,
        [.mark .headerValue, .report .headerValue false] ++ (startLine ch).2) := by
      rw [nextHeader, if_neg hblank]
    have hreport : runOp (requestSettings cfg) (info (.init .request)) ch
        (.opened { d with field := k } .headerValue []) (.report .headerValue false) =
          (.clear (withHeader d (k, [])), none) := report_opened rfl
    rw [tokenStep, hnext]
    simp only [List.cons_append, List.nil_append, runOps, mark_clear, hreport]

theorem fold_open (t : Token) (s : State) (w : Bytes)
    (hstay : ∀ c ∈ w, nextHeader s c = (s, [])) (pre : Bytes) :
    w.foldl (tokenStep cfg) (s, .opened d t pre) = (s, .opened d t (pre ++ w)) := by
  induction w generalizing pre with
  | nil => rw [List.append_nil, List.foldl_nil]
  | cons c w ih =>
    have hone : tokenStep cfg (s, .opened d t pre) c = (s, .opened d t (pre ++ [c])) := by
      rw [tokenStep, hstay c (.head w)]
      simp only [runOps, extend_opened]
    rw [List.foldl_cons, hone, ih (fun e he => hstay e (.tail c he)), List.append_assoc]
    rfl

theorem fold_name (hx : Between x d) {k : Bytes} (hk : LegalName k) :
    (k ++ ascii ":").foldl (tokenStep cfg) x =
      (.headerValueDiscardWs, .clear { d with field := k }) := by
  obtain ⟨hne, hchars⟩ := hk
  obtain ⟨c, rest, rfl⟩ := List.exists_cons_of_ne_nil hne
  have hc := hchars c (.head rest)
  have hstart : tokenStep cfg x c = (.headerField, .opened d .headerField [c]) := by
    have hcr : c ≠ CR := nameChar_ne hc (by decide)
    rw [between_step hx (nameChar_nonblank hc), startLine, if_neg hcr]
    simp only [runOps, mark_clear, extend_opened, List.nil_append]
  have hstay : ∀ e ∈ rest, nextHeader .headerField e = (.headerField, []) := by
    intro e he
    rw [nextHeader, if_neg (nameChar_ne (hchars e (.tail c he)) (by decide))]
  have hcolon : ascii ":" = [58] := by decide
  have hreport : runOp (requestSettings cfg) (info (.init .request)) 58
      (.opened d .headerField ([c] ++ rest)) (.report .headerField false) =
        (.clear { d with field := c::rest }, none) := report_opened rfl
  have hlast : tokenStep cfg (.headerField, .opened d .headerField ([c] ++ rest)) 58 =
      (.headerValueDiscardWs, .clear { d with field := c::rest }) := by
    have hnext : nextHeader .headerField 58 =
        (.headerValueDiscardWs, [.report .headerField false]) := rfl
    rw [tokenStep, hnext]
    simp only [runOps, hreport, extend_clear]
  have hname : (c::rest).foldl (tokenStep cfg) x =
      (.headerField, .opened d .headerField ([c] ++ rest)) := by
    rw [List.foldl_cons, hstart, fold_open .headerField _ rest hstay]
  rw [hcolon, List.foldl_append, hname]
  exact hlast

theorem fold_blanks {w : Bytes} (hw : ∀ c ∈ w, isBlank c = true) :
    w.foldl (tokenStep cfg) (.headerValueDiscardWs, .clear d) =
      (.headerValueDiscardWs, .clear d) := by
  induction w with
  | nil => rfl
  | cons c w ih =>
    have hone : tokenStep cfg (.headerValueDiscardWs, .clear d) c =
        (.headerValueDiscardWs, .clear d) := by
      rw [tokenStep, nextHeader, if_pos (hw c (.head w))]
      rfl
    rw [List.foldl_cons, hone]
    exact ih fun e he => hw e (.tail c he)

theorem fold_value {c : UInt8} {rest : Bytes} (hblank : isBlank c = false)
    (htext : ∀ ch ∈ c::rest, textChar ch = true) :
    (c::rest ++ crlf).foldl (tokenStep cfg) (.headerValueDiscardWs, .clear d) =
      (.headerValueLws, .clear { d with data := d.data.setHeader d.field (c::rest) }) := by
  have hcr : ∀ ch ∈ c::rest, ch ≠ CR := fun ch hch => textChar_ne (htext ch hch) (by decide)
  have hlf : ∀ ch ∈ c::rest, ch ≠ LF := fun ch hch => textChar_ne (htext ch hch) (by decide)
  have hstart : tokenStep cfg (.headerValueDiscardWs, .clear d) c =
      (.headerValue, .opened d .headerValue [c]) := by
    rw [tokenStep, nextHeader, if_neg (by rw [hblank]; decide), if_neg (hcr c (.head rest)),
      if_neg (hlf c (.head rest))]
    simp only [runOps, mark_clear, extend_opened, List.nil_append]
  have hstay : ∀ e ∈ rest, nextHeader .headerValue e = (.headerValue, []) := by
    intro e he
    rw [nextHeader, if_neg (hcr e (.tail c he)), if_neg (hlf e (.tail c he))]
  have hreport : runOp (requestSettings cfg) (info (.init .request)) CR
      (.opened d .headerValue ([c] ++ rest)) (.report .headerValue false) =
        (.clear { d with data := d.data.setHeader d.field (c::rest) }, none) := report_opened rfl
  have hlast : tokenStep cfg (.headerValue, .opened d .headerValue ([c] ++ rest)) CR =
      (.headerAlmostDone, .clear { d with data := d.data.setHeader d.field (c::rest) }) := by
    have hnext : nextHeader .headerValue CR =
        (.headerAlmostDone, [.report .headerValue false]) := rfl
    rw [tokenStep, hnext]
    simp only [runOps, hreport, extend_clear]
  rw [List.foldl_append, List.foldl_cons, hstart, fold_open .headerValue _ rest hstay, crlf,
    List.foldl_cons, hlast]
  rfl

/-- A line sets its header, the value without the blanks in front of it. -/
theorem fold_line (hx : Between x d) (hh : LegalHeader h) :
    Between ((fieldLine h).foldl (tokenStep cfg) x) (withHeader d h) := by
  have hfold : (fieldLine h).foldl (tokenStep cfg) x =
      (bare h.2 ++ crlf).foldl (tokenStep cfg)
        (.headerValueDiscardWs, .clear { d with field := h.1 }) := by
    rw [fieldLine_split, List.foldl_append, List.foldl_append, fold_name hx hh.1,
      fold_blanks fun c hc => List.mem_takeWhile_imp hc]
  rw [hfold]
  rcases bare_cases hh with hempty | ⟨c, rest, hbare, hblank, htext⟩
  · have hheader : withHeader d h = withHeader d (h.1, []) := by
      simp only [withHeader, hempty]
      rfl
    rw [hempty, hheader]
    exact .empty d h.1
  · rw [withHeader, hbare, fold_value hblank htext]
    exact .valued _

theorem fold_lines {hs : List (Bytes × Bytes)} (hlegal : ∀ h ∈ hs, LegalHeader h)
    (hx : Between x d) :
    Between ((hs.flatMap fieldLine).foldl (tokenStep cfg) x) (hs.foldl withHeader d) := by
  induction hs generalizing x d with
  | nil => exact hx
  | cons h rest ih =>
    rw [List.flatMap_cons, List.foldl_append, List.foldl_cons]
    exact ih (fun h' hmem => hlegal h' (.tail h hmem)) (fold_line hx (hlegal h (.head rest)))

theorem fold_blank_line (hx : Between x d) :
    tokenStep cfg x CR = (.headersAlmostDone, .clear d) := by
  rw [between_step hx ⟨by decide, by decide⟩, startLine, if_pos rfl]
  rfl

end Lines

section Block

variable {fr fr' : Frame} {code : ℕ} {h : Bytes × Bytes} {hs : List (Bytes × Bytes)}

theorem goes_fieldLine (hh : LegalHeader h) (hadd : addHeader fr h = some fr') :
    Goes cfg (Bound fr code) (fieldLine h) (Bound fr' code) := by
  have hcolon : ascii ":" = [58] := by decide
  rw [fieldLine_split, hcolon]
  exact (goes_name hh.1).append <|
    (goes_blanks fun c hc => List.mem_takeWhile_imp hc).append (goes_value hh hadd)

theorem goes_fieldLines (hlegal : ∀ h ∈ hs, LegalHeader h) (hframe : framing fr hs = some fr') :
    Goes cfg (Bound fr code) (hs.flatMap fieldLine) (Bound fr' code) := by
  induction hs generalizing fr with
  | nil =>
    obtain rfl := Option.some.inj hframe
    exact goes_nil
  | cons h rest ih =>
    obtain ⟨fr₁, hadd, hrest⟩ := Option.bind_eq_some_iff.mp hframe
    rw [List.flatMap_cons]
    exact (goes_fieldLine (hlegal h (.head rest)) hadd).append
      (ih (fun h' hmem => hlegal h' (.tail h hmem)) hrest)

end Block

end Lamb.HttpRequestHead
