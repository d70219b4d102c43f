import Lamb.HttpHeaderNames
import Mathlib.Data.List.Induction

/-!
# Header values under the response parser

Behind its name and the blanks after the colon a value runs to the end of the line.
What is known inside of it depends on the name: nothing that bears on the body, how
much of `chunked` has matched, or the number read so far.
-/

set_option autoImplicit false

namespace Lamb.HttpHeaderValues
open Lamb.ByteString Lamb.Http Lamb.HttpUrl Lamb.HttpMachine Lamb.HttpParser Lamb.Tokens
open Lamb.HttpResponseHead Lamb.HttpHeaderNames

variable {cfg : Config}

def textChar (c : UInt8) : Bool := c = 9 || (32 ≤ c && c ≠ 127)

def isBlank (c : UInt8) : Bool := c = (' ' : Char) || c = ('\t' : Char)

theorem textChar_ne {c d : UInt8} (h : textChar c = true) (hd : textChar d = false) : c ≠ d := by
  rintro rfl
  rw [h] at hd
  cases hd

theorem textChar_header {c : UInt8} (h : textChar c = true) : isHeaderChar c = true := by
  have h32 : 32 ≤ c → 31 < c := fun hle => UInt8.lt_of_lt_of_le (by decide) hle
  simp only [textChar, Bool.or_eq_true, Bool.and_eq_true, decide_eq_true_eq] at h
  simp only [isHeaderChar, Bool.or_eq_true, Bool.and_eq_true, decide_eq_true_eq]
  rcases h with h | ⟨hle, hne⟩
  · exact .inl (.inr h)
  · exact .inr ⟨h32 hle, hne⟩

structure SameCounts (p q : HttpMachine.HttpParser) : Prop where
  state : q.state = p.state
  nread : q.nread = p.nread
  segment : q.segment = p.segment
  general : q.general = p.general
  steady : Steady p → Steady q

theorem sameCounts_refl (p : HttpMachine.HttpParser) : SameCounts p p :=
  ⟨rfl, rfl, rfl, rfl, id⟩

theorem contentLengthChar_counts {p q : HttpMachine.HttpParser} {ch : UInt8}
    (h : contentLengthChar p ch = some q) : SameCounts p q := by
  unfold contentLengthChar at h
  split_ifs at h <;> obtain rfl := Option.some.inj h <;>
    exact ⟨rfl, rfl, rfl, rfl, fun hs => hs.same rfl⟩

theorem valueChar_counts {p q : HttpMachine.HttpParser} {ch : UInt8} (h : valueChar p ch = some q) :
    SameCounts p q := by
  have hsame : ∀ (i : ℕ) (hs : HeaderState) (a b c : Bool), SameCounts p { p with
      index := i
      headerState := hs
      flags := { p.flags with
        connectionKeepAlive := a
        connectionClose := b
        connectionUpgrade := c } } := fun i hs a b c =>
    ⟨rfl, rfl, rfl, rfl, fun hp => hp.same rfl⟩
  unfold valueChar at h
  split at h
  case h_4 =>
    split_ifs at h
    · obtain rfl := Option.some.inj h
      exact sameCounts_refl p
    · exact contentLengthChar_counts h
  case h_5 => exact contentLengthChar_counts h
  case h_6 =>
    split_ifs at h
    obtain rfl := Option.some.inj h
    exact sameCounts_refl p
  all_goals
    obtain rfl := Option.some.inj h
    try simp only [connectionTokenEnd]
    try split_ifs
  all_goals first
    | exact sameCounts_refl p
    | exact hsame _ _ p.flags.connectionKeepAlive p.flags.connectionClose p.flags.connectionUpgrade
    | exact hsame _ _ true p.flags.connectionClose p.flags.connectionUpgrade
    | exact hsame _ _ p.flags.connectionKeepAlive true p.flags.connectionUpgrade
    | exact hsame _ _ p.flags.connectionKeepAlive p.flags.connectionClose true

def Stable (I : View → Prop) : Prop := ∀ v s, I v → I { v with state := s }

section Value

variable {fr : Frame} {code : ℕ} {k : Bytes}

theorem goes_value_char {I J : View → Prop} {ch : UInt8} (hch : textChar ch = true)
    (hnext : ∀ p : HttpMachine.HttpParser, I (view p) →
      ∃ q, valueChar p ch = some q ∧ J (view q)) :
    Goes cfg (fun v => v.state = .headerValue ∧ I v) [ch]
      (fun v => v.state = .headerValue ∧ J v) := by
  refine goes_byte fun n p hp hv => ?_
  obtain ⟨hs, hI⟩ := hv
  have hstate : p.state = .headerValue := hs
  obtain ⟨q, hq, hJ⟩ := hnext p hI
  have hsame := valueChar_counts hq
  have hroom := hp.room
  have hword := hp.word
  have hahead := hp.ahead
  have hskip : ¬ (p.general ≠ 0 ∧ p.general = cfg.maxHeaderSize) := by omega
  have hcr : ch ≠ CR := textChar_ne hch (by decide)
  have hlf : ch ≠ LF := textChar_ne hch (by decide)
  have hswitch : reexecute cfg p ch = headerValue cfg p ch := by rw [reexecute, hstate]
  have hgo : reexecute cfg p ch =
      .go { q with segment := p.segment+1, general := runAhead cfg p } [] := by
    rw [hswitch]
    simp only [headerValue, hskip, hcr, hlf, textChar_header hch, hq, if_false, Bool.not_true,
      Bool.false_eq_true]
  have hrun : runAhead cfg p ≤ p.general+1 := by
    unfold runAhead
    split_ifs <;> omega
  have hqs := hsame.steady hp.toSteady
  refine ⟨_, [], hgo, by simp, ⟨?_, ?_, ?_, ?_, ?_, ?_⟩, hsame.state.trans hstate, hJ⟩
  · exact ⟨hqs.type, hqs.method, hqs.errno, hqs.upgrade, hqs.skipbody, hqs.trailing⟩
  · simp only [spent, hsame.nread]
    omega
  · simp only [spent, hsame.nread]
    omega
  · simp only [spent, hsame.nread]
    omega
  · intro _ h2
    exact absurd (hsame.state.trans hstate) h2
  · rw [hsame.state, hstate]
    rfl

theorem fails_value_char {I : View → Prop} {ch : UInt8} (hch : textChar ch = true)
    (hnext : ∀ p : HttpMachine.HttpParser, I (view p) → valueChar p ch = none) (bs : Bytes) :
    Fails cfg (fun v => v.state = .headerValue ∧ I v) (ch::bs) := by
  refine fails_byte (fun n p hp hv => ?_) bs
  obtain ⟨hs, hI⟩ := hv
  have hstate : p.state = .headerValue := hs
  have hroom := hp.room
  have hahead := hp.ahead
  have hskip : ¬ (p.general ≠ 0 ∧ p.general = cfg.maxHeaderSize) := by omega
  have hcr : ch ≠ CR := textChar_ne hch (by decide)
  have hlf : ch ≠ LF := textChar_ne hch (by decide)
  refine ⟨.INVALID_CONTENT_LENGTH, p, [], ?_, by decide⟩
  rw [reexecute, hstate]
  simp only [headerValue, hskip, hcr, hlf, textChar_header hch, hnext p hI, if_false, Bool.not_true,
    Bool.false_eq_true]
  rfl

theorem goes_value_end {I : View → Prop} (hstable : Stable I) :
    Goes cfg (fun v => v.state = .headerValue ∧ I v) [CR, LF]
      (fun v => v.state = .headerValueLws ∧ I v) := by
  have hcr : Goes cfg (fun v => v.state = .headerValue ∧ I v) [CR]
      (fun v => v.state = .headerAlmostDone ∧ I v) := by
    refine goes_byte fun n p hp hv => ?_
    obtain ⟨hs, hI⟩ := hv
    have hstate : p.state = .headerValue := hs
    have hroom := hp.room
    have hword := hp.word
    have hahead := hp.ahead
    have hskip : ¬ (p.general ≠ 0 ∧ p.general = cfg.maxHeaderSize) := by omega
    have hmod : (p.nread+p.segment) % 2^32 = p.nread+p.segment := Nat.mod_eq_of_lt (by omega)
    let q : HttpMachine.HttpParser := { p with
      state := .headerAlmostDone
      segment := 0
      general := 0
      nread := p.nread+p.segment }
    have hgo : reexecute cfg p CR = .go q [.report .headerValue false] := by
      rw [reexecute, hstate]
      simp only [headerValue, hskip, if_false, if_true, countHeaderSize, hmod]
      rw [if_neg (by omega)]
      rfl
    refine ⟨q, _, hgo, by simp [HeadOp], ⟨?_, ?_, ?_, ?_, fun _ _ => rfl, rfl⟩, rfl,
      hstable _ .headerAlmostDone hI⟩
    · exact hp.same rfl
    · simp only [spent, q]
      omega
    · simp only [spent, q]
      omega
    · simp only [spent, q]
      omega
  have hlf : Goes cfg (fun v => v.state = .headerAlmostDone ∧ I v) [LF]
      (fun v => v.state = .headerValueLws ∧ I v) := by
    refine goes_byte fun n p hp hv => ?_
    obtain ⟨hs, hI⟩ := hv
    have hstate : p.state = .headerAlmostDone := hs
    refine ⟨{ p with state := .headerValueLws }, [], ?_, by simp, hp.reading
      (by rw [hstate]; decide) ?_ rfl rfl rfl rfl, rfl, hstable _ .headerValueLws hI⟩
    · rw [reexecute, hstate]
      rfl
    · exact hp.same rfl
  exact hcr.append hlf

theorem goes_blanks {bs : Bytes} (h : ∀ c ∈ bs, isBlank c = true) :
    Goes cfg (Named .headerValueDiscardWs k fr code) bs
      (Named .headerValueDiscardWs k fr code) := by
  refine goes_all fun ch hch => goes_byte fun n p hp hv => ?_
  have hstate : p.state = .headerValueDiscardWs := hv.state
  have hblank : ch = (' ' : Char) ∨ ch = ('\t' : Char) := by
    have hc := h ch hch
    simpa only [isBlank, Bool.or_eq_true, decide_eq_true_eq] using hc
  refine ⟨p, [], ?_, by simp, hp.reading (by rw [hstate]; decide) hp.toSteady rfl rfl rfl
    (by rw [hstate]; rfl), hv⟩
  rw [reexecute, hstate]
  simp only [headerValueDiscardWs, hblank, if_true]

theorem goes_named {ch : UInt8} {s t : State} (hs : s ≠ .headerField ∧ s ≠ .headerValue)
    (ht : parsingHeader t = true)
    (h : ∀ p : HttpMachine.HttpParser, p.state = s → reexecute cfg p ch = p.goto t) :
    Goes cfg (Named s k fr code) [ch] (Named t k fr code) := by
  refine goes_byte fun n p hp hv => ?_
  have hstate : p.state = s := hv.state
  refine ⟨_, [], h p hstate, by simp, hp.reading (by rwa [hstate]) ?_ rfl rfl rfl ht, rfl,
    hv.length, hv.coding, hv.naming,
    ⟨hv.framed.chunked, hv.framed.hasLength, hv.framed.contentLength⟩,
    hv.code⟩
  exact hp.same rfl

theorem goes_empty_value : Goes cfg (Named .headerValueDiscardWs k fr code) [CR, LF]
    (Named .headerValueDiscardLws k fr code) :=
  (goes_named (t := .headerValueDiscardWsAlmostDone) (by decide) rfl fun p hp => by
    rw [reexecute, hp]; rfl).append <|
  goes_named (by decide) rfl fun p hp => by
    rw [reexecute, hp]
    simp only [expect, strictCheck, ne_eq, not_true_eq_false, decide_false, Bool.and_false,
      Bool.false_eq_true, if_false]

theorem named_bound {v : View} (h : Named .headerValueDiscardLws k fr code v)
    (hk : lowerName k ≠ lengthName) : Bound fr code v := by
  refine ⟨h.code, .inr ⟨.inr ⟨h.state, mt h.length.mp hk⟩, ?_⟩⟩
  have hnaming : v.headerState ≠ .transferEncodingChunked := by
    intro h0
    exact h.naming (by rw [h0]; decide)
  rw [commit, if_neg hnaming]
  exact h.framed

theorem headerValueDiscardWs_start {ch : UInt8} (hch : textChar ch = true)
    (hblank : isBlank ch = false) (p : HttpMachine.HttpParser) :
    headerValueDiscardWs p ch = headerValueStart p ch := by
  have hcr : ch ≠ CR := textChar_ne hch (by decide)
  have hlf : ch ≠ LF := textChar_ne hch (by decide)
  rw [isBlank, Bool.or_eq_false_iff, decide_eq_false_iff_not, decide_eq_false_iff_not] at hblank
  simp only [headerValueDiscardWs, hblank.1, hblank.2, hcr, hlf, or_self, if_false]

theorem goes_value_start {J : View → Prop} {ch : UInt8} (hch : textChar ch = true)
    (hblank : isBlank ch = false)
    (hnext : ∀ p : HttpMachine.HttpParser, Named .headerValueDiscardWs k fr code (view p) →
      ∃ q, headerValueStart p ch = .go q [.mark .headerValue] ∧ q.state = .headerValue ∧
        SameCounts p { q with state := p.state } ∧ J (view q)) :
    Goes cfg (Named .headerValueDiscardWs k fr code) [ch]
      (fun v => v.state = .headerValue ∧ J v) := by
  refine goes_byte fun n p hp hv => ?_
  have hstate : p.state = .headerValueDiscardWs := hv.state
  obtain ⟨q, hq, hqstate, hsame, hJ⟩ := hnext p hv
  have hqs := hsame.steady hp.toSteady
  refine ⟨q, [.mark .headerValue], ?_, by simp [HeadOp],
    hp.reading (by rw [hstate]; decide) ?_ hsame.nread
    hsame.segment hsame.general (by rw [hqstate]; rfl), hqstate, hJ⟩
  · rw [reexecute, hstate, ← hq]
    exact headerValueDiscardWs_start hch hblank p
  · exact ⟨hqs.type, hqs.method, hqs.errno, hqs.upgrade, hqs.skipbody, hqs.trailing⟩

/-! ## The other headers -/

def harmful : List HeaderState := [.contentLength, .contentLengthNum, .contentLengthWs,
  .transferEncoding, .matchingTransferEncodingChunked, .transferEncodingChunked]

def Harmless (fr : Frame) (code : ℕ) (v : View) : Prop :=
  v.headerState ∉ harmful ∧ Framed fr v ∧ v.statusCode = code

theorem harmless_stable : Stable (Harmless fr code) := fun _ _ h =>
  ⟨h.1, ⟨h.2.1.chunked, h.2.1.hasLength, h.2.1.contentLength⟩, h.2.2⟩

theorem connectionToken_harmless (c : UInt8) {other : HeaderState} (h : other ∉ harmful) :
    connectionToken c other ∉ harmful := by
  unfold connectionToken
  split_ifs <;> first | decide | exact h

theorem matchName_harmless (p : HttpMachine.HttpParser) (name : Bytes) (c : UInt8)
    (done : HeaderState) (hp : p.headerState ∉ harmful) (hdone : done ∉ harmful) :
    (matchName p name c .matchingConnectionToken done).headerState ∉ harmful := by
  have hnext := matchName_next rfl name c .matchingConnectionToken done (p := p)
  simp only [List.mem_cons, List.not_mem_nil, or_false] at hnext
  rcases hnext with h | h | h <;> rw [h]
  · decide
  · exact hdone
  · exact hp

theorem connectionTokenEnd_harmless (p : HttpMachine.HttpParser) (ch : UInt8) (flags : Flags)
    (hp : p.headerState ∉ harmful) : (connectionTokenEnd p ch flags).headerState ∉ harmful := by
  unfold connectionTokenEnd
  split_ifs
  · dsimp only
    decide
  · dsimp only
    decide
  · exact hp

theorem start_harmless {p : HttpMachine.HttpParser} (hp : p.headerState ∉ harmful) (ch : UInt8) :
    ∃ hs up, headerValueStart p ch = .go { p with
      state := .headerValue
      index := 0
      headerState := hs
      flags := { p.flags with upgrade := up } } [.mark .headerValue] ∧ hs ∉ harmful := by
  cases h : p.headerState <;> rw [h] at hp <;> simp only [headerValueStart, h]
  case contentLength | contentLengthWs | transferEncoding | contentLengthNum
      | matchingTransferEncodingChunked | transferEncodingChunked => exact absurd (by decide) hp
  case upgrade => exact ⟨_, true, rfl, by decide⟩
  case connection =>
    exact ⟨_, p.flags.upgrade, rfl, connectionToken_harmless (lower ch) (by decide)⟩
  case matchingConnectionTokenStart =>
    exact ⟨.matchingConnectionTokenStart, p.flags.upgrade, by rw [← h], by decide⟩
  all_goals exact ⟨.general, p.flags.upgrade, rfl, by decide⟩

/-- The rest of such a value keeps to such states and to the frame. -/
theorem next_harmless {p : HttpMachine.HttpParser} (hp : p.headerState ∉ harmful) (ch : UInt8) :
    ∃ q, valueChar p ch = some q ∧ q.headerState ∉ harmful ∧
      q.flags.chunked = p.flags.chunked ∧ q.flags.contentlength = p.flags.contentlength ∧
      q.contentLength = p.contentLength ∧ q.statusCode = p.statusCode := by
  have hmatch := fun name done => matchName_harmless p name (lower ch) done hp
  cases h : p.headerState <;> simp only [valueChar, h]
  case contentLength | contentLengthWs | transferEncoding | contentLengthNum
      | matchingTransferEncodingChunked | transferEncodingChunked =>
    rw [h] at hp
    exact absurd (by decide) hp
  case general | connection => exact ⟨p, rfl, hp, rfl, rfl, rfl, rfl⟩
  case matchingConnectionTokenStart =>
    refine ⟨_, rfl, ?_, rfl, rfl, rfl, rfl⟩
    refine connectionToken_harmless (lower ch) ?_
    split_ifs <;> decide
  case matchingConnectionKeepAlive | matchingConnectionClose | matchingConnectionUpgrade =>
    exact ⟨_, rfl, hmatch _ _ (by decide), rfl, rfl, rfl, rfl⟩
  case matchingConnectionToken =>
    split_ifs
    · refine ⟨_, rfl, ?_, rfl, rfl, rfl, rfl⟩
      dsimp only
      decide
    · exact ⟨p, rfl, hp, rfl, rfl, rfl, rfl⟩
  case connectionKeepAlive | connectionClose | connectionUpgrade =>
    refine ⟨_, rfl, connectionTokenEnd_harmless p ch _ hp, ?_⟩
    unfold connectionTokenEnd
    split_ifs <;> exact ⟨rfl, rfl, rfl, rfl⟩
  all_goals
    refine ⟨_, rfl, ?_, rfl, rfl, rfl, rfl⟩
    dsimp only
    decide

theorem named_harmless {s : State} {v : View} (h : Named s k fr code v)
    (hlength : lowerName k ≠ lengthName) (hcoding : lowerName k ≠ codingName) :
    v.headerState ∉ harmful := by
  have h1 := mt h.length.mp hlength
  have h2 := mt h.coding.mp hcoding
  have h3 := h.naming
  revert h1 h2 h3
  cases v.headerState <;> decide

theorem Harmless.bound {v : View} (hs : v.state = .headerValueLws) (h : Harmless fr code v) :
    Bound fr code v := by
  refine ⟨h.2.2, .inr ⟨.inl hs, ?_⟩⟩
  have hne : v.headerState ≠ .transferEncodingChunked := by
    intro h0
    exact h.1 (by rw [h0]; decide)
  rw [commit, if_neg hne]
  exact h.2.1

theorem goes_harmless_value {c : UInt8} {rest : Bytes} (htext : ∀ ch ∈ c::rest, textChar ch = true)
    (hblank : isBlank c = false) (hlength : lowerName k ≠ lengthName)
    (hcoding : lowerName k ≠ codingName) :
    Goes cfg (Named .headerValueDiscardWs k fr code) (c::rest ++ [CR, LF]) (Bound fr code) := by
  have hfirst : Goes cfg (Named .headerValueDiscardWs k fr code) [c]
      (fun v => v.state = .headerValue ∧ Harmless fr code v) := by
    refine goes_value_start (htext c (.head rest)) hblank fun p hv => ?_
    obtain ⟨hs, up, hgo, hsafe⟩ := start_harmless (named_harmless hv hlength hcoding) c
    refine ⟨_, hgo, rfl, ⟨rfl, rfl, rfl, rfl, fun hp => ?_⟩, hsafe,
      ⟨hv.framed.chunked, hv.framed.hasLength, hv.framed.contentLength⟩, hv.code⟩
    exact hp.same rfl
  have hrest : Goes cfg (fun v => v.state = .headerValue ∧ Harmless fr code v) rest
      (fun v => v.state = .headerValue ∧ Harmless fr code v) := by
    refine goes_all fun ch hch => goes_value_char (htext ch (.tail c hch)) fun p hI => ?_
    obtain ⟨q, hq, hsafe, h1, h2, h3, h4⟩ := next_harmless hI.1 ch
    exact ⟨q, hq, hsafe, ⟨h1.trans hI.2.1.chunked, h2.trans hI.2.1.hasLength,
      h3.trans hI.2.1.contentLength⟩, h4.trans hI.2.2⟩
  exact hfirst.cons <| hrest.append <|
    (goes_value_end harmless_stable).weaken fun v hv => hv.2.bound hv.1

end Value

/-! ## `transfer-encoding` -/

def chunkedName : Bytes := ascii "chunked"

def ChunkedText (w : Bytes) : Prop := ∃ n, w.map lower = chunkedName ++ List.replicate n 32

theorem chunkedText_iff (w : Bytes) :
    ChunkedText w ↔ w.map lower = chunkedName ++ List.replicate (w.length-7) 32 := by
  constructor
  · rintro ⟨n, hn⟩
    have hlength := congrArg List.length hn
    have hseven : chunkedName.length = 7 := by decide
    rw [List.length_map, List.length_append, List.length_replicate, hseven] at hlength
    rw [hn, show w.length-7 = n by omega]
  · exact fun h => ⟨_, h⟩

instance decidableChunkedText (w : Bytes) : Decidable (ChunkedText w) :=
  decidable_of_iff' _ (chunkedText_iff w)

theorem lower_space {c : UInt8} (h : textChar c = true) (hc : lower c = 32) : c = 32 := by
  have hle : c.toNat ≤ 32 := by
    have hor : (lower c).toNat = c.toNat ||| 32 := UInt8.toNat_or ..
    have hleft : c.toNat ≤ c.toNat ||| 32 := Nat.left_le_or
    rw [hc] at hor
    rw [← hor] at hleft
    exact hleft
  simp only [textChar, Bool.or_eq_true, Bool.and_eq_true, decide_eq_true_eq] at h
  rcases h with h9 | ⟨hge, -⟩
  · subst h9
    exact absurd hc (by decide)
  · have hge' : 32 ≤ c.toNat := UInt8.le_iff_toNat_le.mp hge
    exact UInt8.toNat_inj.mp (Nat.le_antisymm hle hge')

def InCoding (pre : Bytes) (hs : HeaderState) (i : ℕ) : Prop :=
  hs = .matchingTransferEncodingChunked ∧ i+1 = pre.length ∧ pre.length < 7 ∧
      pre.map lower <+: chunkedName ∨
    hs = .transferEncodingChunked ∧ ChunkedText pre ∨
    hs = .general ∧ ∀ rest, ¬ ChunkedText (pre ++ rest)

theorem chunked_prefix {pre : Bytes} (hlt : pre.length ≤ 7)
    (h : ∃ rest, ChunkedText (pre ++ rest)) : pre.map lower <+: chunkedName := by
  obtain ⟨rest, n, hn⟩ := h
  rw [List.map_append] at hn
  have hpre : pre.map lower <+: chunkedName ++ List.replicate n 32 := ⟨_, hn⟩
  exact List.prefix_of_prefix_length_le hpre (List.prefix_append _ _)
    (by rw [List.length_map]; exact hlt)

theorem inCoding_first (ch : UInt8) :
    InCoding [ch] (if lower ch = ('c' : Char) then .matchingTransferEncodingChunked else .general)
      0 := by
  by_cases hc : lower ch = ('c' : Char)
  · rw [if_pos hc]
    refine .inl ⟨rfl, rfl, by simp, ?_⟩
    rw [List.map_singleton, hc]
    decide
  · rw [if_neg hc]
    refine .inr (.inr ⟨rfl, fun rest h => hc ?_⟩)
    have hp := chunked_prefix (by simp : [ch].length ≤ 7) ⟨rest, h⟩
    exact (List.cons_prefix_cons.mp hp).1

/-- The one character of `s_header_value` behind `transfer-encoding`. -/
theorem inCoding_next {p : HttpMachine.HttpParser} {pre : Bytes} {ch : UInt8}
    (htext : textChar ch = true) (h : InCoding pre p.headerState p.index) :
    ∃ i hs, valueChar p ch = some { p with index := i, headerState := hs } ∧
      InCoding (pre ++ [ch]) hs i := by
  have hseven : chunkedName.length = 7 := by decide
  have hmap : (pre ++ [ch]).map lower = pre.map lower ++ [lower ch] := List.map_append
  have hlength : (pre ++ [ch]).length = pre.length+1 := List.length_append
  rcases h with ⟨hhs, hi, hlt, hpre⟩ | ⟨hhs, n, hn⟩ | ⟨hhs, hnone⟩
  · have hlt' : (pre.map lower).length < chunkedName.length := by
      rw [List.length_map, hseven]
      exact hlt
    have hc := prefix_snoc hpre hlt' (lower ch)
    rw [List.length_map, ← hmap] at hc
    have hstate := matchName_path hhs hi (show _ < chunkedName.length by omega) (lower ch)
      .transferEncodingChunked
    refine ⟨p.index+1, _, by simp only [valueChar, hhs]; rfl, ?_⟩
    change InCoding _ (matchName p chunkedName (lower ch) .general
      .transferEncodingChunked).headerState _
    rw [hstate]
    by_cases hnext : lower ch = chunkedName.getD pre.length 0
    · rw [if_pos hnext]
      have hwhole := hc.mpr hnext
      split_ifs with hlast
      · refine .inr (.inl ⟨rfl, 0, ?_⟩)
        rw [List.replicate_zero, List.append_nil]
        exact hwhole.eq_of_length (by rw [List.length_map, hlength, hlast])
      · exact .inl ⟨rfl, by omega, by omega, hwhole⟩
    · rw [if_neg hnext]
      refine .inr (.inr ⟨rfl, fun rest h => hnext (hc.mp ?_)⟩)
      exact chunked_prefix (by omega) ⟨rest, h⟩
  · by_cases hspace : ch = (' ' : Char)
    · have hsame : valueChar p ch = some p := by
        simp only [valueChar, hhs, hspace, ne_eq, not_true_eq_false, if_false]
      refine ⟨p.index, .transferEncodingChunked, ?_, .inr (.inl ⟨rfl, n+1, ?_⟩)⟩
      · rw [← hhs]
        exact hsame
      · rw [hmap, hn, hspace, List.replicate_succ', List.append_assoc]
        rfl
    · refine ⟨p.index, .general, ?_, .inr (.inr ⟨rfl, fun rest hchunked => hspace ?_⟩)⟩
      · simp only [valueChar, hhs, hspace, ne_eq, not_false_eq_true, if_true]
      · obtain ⟨m, hm⟩ := hchunked
        apply lower_space htext
        rw [List.map_append, hmap, hn, List.append_assoc, List.append_assoc,
          List.append_cancel_left_eq] at hm
        have hmem : lower ch ∈ List.replicate m (32 : UInt8) := by
          rw [← hm]
          simp
        exact List.eq_of_mem_replicate hmem
  · have hsame : valueChar p ch = some p := by simp only [valueChar, hhs]
    refine ⟨p.index, .general, ?_, .inr (.inr ⟨rfl, fun rest h => ?_⟩)⟩
    · rw [← hhs]
      exact hsame
    · rw [List.append_assoc] at h
      exact hnone _ h

theorem inCoding_end {pre : Bytes} {hs : HeaderState} {i : ℕ} (h : InCoding pre hs i) :
    hs = .transferEncodingChunked ↔ ChunkedText pre := by
  rcases h with ⟨rfl, -, hlt, -⟩ | ⟨rfl, hchunked⟩ | ⟨rfl, hnone⟩
  · refine iff_of_false (by decide) fun hchunked => ?_
    obtain ⟨n, hn⟩ := hchunked
    have hlength := congrArg List.length hn
    have hseven : chunkedName.length = 7 := by decide
    rw [List.length_map, List.length_append, hseven] at hlength
    omega
  · exact iff_of_true rfl hchunked
  · refine iff_of_false (by decide) fun h => hnone [] ?_
    rw [List.append_nil]
    exact h

def Coding (fr : Frame) (code : ℕ) (pre : Bytes) (v : View) : Prop :=
  InCoding pre v.headerState v.index ∧ Framed fr v ∧ v.statusCode = code

section Coding

variable {fr : Frame} {code : ℕ} {k : Bytes}

theorem coding_stable (pre : Bytes) : Stable (Coding fr code pre) := fun _ _ h =>
  ⟨h.1, ⟨h.2.1.chunked, h.2.1.hasLength, h.2.1.contentLength⟩, h.2.2⟩

def withCoding (fr : Frame) (w : Bytes) : Frame :=
  if ChunkedText w then { fr with chunked := true } else fr

theorem Coding.bound {w : Bytes} {v : View} (hs : v.state = .headerValueLws)
    (h : Coding fr code w v) : Bound (withCoding fr w) code v := by
  refine ⟨h.2.2, .inr ⟨.inl hs, ?_⟩⟩
  have hend := inCoding_end h.1
  unfold commit withCoding
  by_cases hw : ChunkedText w
  · rw [if_pos (hend.mpr hw), if_pos hw]
    exact ⟨rfl, h.2.1.hasLength, h.2.1.contentLength⟩
  · rw [if_neg (mt hend.mp hw), if_neg hw]
    exact h.2.1

theorem goes_coding_value {c : UInt8} {rest : Bytes} (htext : ∀ ch ∈ c::rest, textChar ch = true)
    (hblank : isBlank c = false) (hcoding : lowerName k = codingName) :
    Goes cfg (Named .headerValueDiscardWs k fr code) (c::rest ++ [CR, LF])
      (Bound (withCoding fr (c::rest)) code) := by
  have hfirst : Goes cfg (Named .headerValueDiscardWs k fr code) [c]
      (fun v => v.state = .headerValue ∧ Coding fr code [c] v) := by
    refine goes_value_start (htext c (.head rest)) hblank fun p hv => ?_
    have hname : p.headerState = .transferEncoding := hv.coding.mpr hcoding
    refine ⟨{ p with
      state := .headerValue
      index := 0
      headerState := if lower c = ('c' : Char) then .matchingTransferEncodingChunked
        else .general }, ?_, rfl, ⟨rfl, rfl, rfl, rfl, fun hp => ?_⟩, inCoding_first c,
      ⟨hv.framed.chunked, hv.framed.hasLength, hv.framed.contentLength⟩, hv.code⟩
    · simp only [headerValueStart, hname]
    · exact hp.same rfl
  have hrest : Goes cfg (fun v => v.state = .headerValue ∧ Coding fr code [c] v) rest
      (fun v => v.state = .headerValue ∧ Coding fr code ([c] ++ rest) v) := by
    refine goes_prefix (fun pre v => v.state = .headerValue ∧ Coding fr code pre v)
      (fun pre ch hch => ?_) [c]
    refine goes_value_char (htext ch (.tail c hch)) fun p hI => ?_
    obtain ⟨i, hs, hq, hnext⟩ := inCoding_next (htext ch (.tail c hch)) hI.1
    exact ⟨_, hq, hnext, ⟨hI.2.1.chunked, hI.2.1.hasLength, hI.2.1.contentLength⟩, hI.2.2⟩
  exact hfirst.cons <| hrest.append <|
    (goes_value_end (coding_stable _)).weaken fun v hv => hv.2.bound hv.1

end Coding

/-! ## `content-length` -/

def lengthStep (s : Option (Bool × ℕ)) (ch : UInt8) : Option (Bool × ℕ) :=
  s.bind fun (ws, n) =>
    if ch = (' ' : Char) then some (true, n)
    else if ws || !isNum ch || (ullongMax-10)/10 < n then none
    else some (false, n*10+(ch-48).toNat)

def lengthFold : Bytes → Option (Bool × ℕ)
  | [] => none
  | c::rest => if isNum c then rest.foldl lengthStep (some (false, (c-48).toNat)) else none

theorem lengthFold_snoc {pre : Bytes} (hpre : pre ≠ []) (ch : UInt8) :
    lengthFold (pre ++ [ch]) = lengthStep (lengthFold pre) ch := by
  cases pre with
  | nil => exact absurd rfl hpre
  | cons c rest =>
    simp only [List.cons_append, lengthFold, List.foldl_append, List.foldl_cons, List.foldl_nil]
    split_ifs
    · rfl
    · rfl

/-- Behind the part `pre` of a value of `content-length`. -/
structure InLength (fr : Frame) (code : ℕ) (pre : Bytes) (v : View) : Prop where
  nonempty : pre ≠ []
  value : ∃ ws, lengthFold pre = some (ws, v.contentLength) ∧
    v.headerState = if ws then .contentLengthWs else .contentLengthNum
  chunked : v.chunked = fr.chunked
  hasLength : v.hasLength = true
  code : v.statusCode = code

theorem inLength_stable (fr : Frame) (code : ℕ) (pre : Bytes) : Stable (InLength fr code pre) :=
  fun _ _ h => ⟨h.nonempty, h.value, h.chunked, h.hasLength, h.code⟩

theorem inLength_next {fr : Frame} {code : ℕ} {pre : Bytes} {p : HttpMachine.HttpParser}
    (h : InLength fr code pre (view p)) (ch : UInt8) :
    (∃ q, valueChar p ch = some q ∧ InLength fr code (pre ++ [ch]) (view q)) ∨
      valueChar p ch = none ∧ lengthFold (pre ++ [ch]) = none := by
  obtain ⟨hpre, ⟨ws, hfold, hhs⟩, hchunked, hhas, hcode⟩ := h
  have hsnoc := lengthFold_snoc hpre ch
  rw [hfold] at hsnoc
  change lengthFold (pre ++ [ch]) = if ch = (' ' : Char) then some (true, p.contentLength)
    else if ws || !isNum ch || (ullongMax-10)/10 < p.contentLength then none
    else some (false, p.contentLength*10+(ch-48).toNat) at hsnoc
  have hne : pre ++ [ch] ≠ [] := by simp
  cases ws with
  | true =>
    have hstate : p.headerState = .contentLengthWs := hhs
    by_cases hspace : ch = (' ' : Char)
    · rw [if_pos hspace] at hsnoc
      refine .inl ⟨p, ?_, hne, ⟨true, hsnoc, hhs⟩, hchunked, hhas, hcode⟩
      simp only [valueChar, hstate, hspace, if_true]
    · rw [if_neg hspace, if_pos (by simp)] at hsnoc
      refine .inr ⟨?_, hsnoc⟩
      simp only [valueChar, hstate, hspace, if_false]
  | false =>
    have hstate : p.headerState = .contentLengthNum := hhs
    have hvalue : valueChar p ch = contentLengthChar p ch := by simp only [valueChar, hstate]
    rw [hvalue]
    by_cases hspace : ch = (' ' : Char)
    · rw [if_pos hspace] at hsnoc
      refine .inl ⟨{ p with headerState := .contentLengthWs }, ?_, hne, ⟨true, hsnoc, rfl⟩,
        hchunked, hhas, hcode⟩
      simp only [contentLengthChar, hspace, if_true]
    · rw [if_neg hspace] at hsnoc
      by_cases hbad : isNum ch = true ∧ ¬ (ullongMax-10)/10 < p.contentLength
      · rw [if_neg (by simp [hbad.1, hbad.2])] at hsnoc
        refine .inl ⟨{ p with
          headerState := .contentLengthNum
          contentLength := p.contentLength*10+(ch-48).toNat }, ?_, hne, ⟨false, hsnoc, rfl⟩,
          hchunked, hhas, hcode⟩
        simp only [contentLengthChar, hspace, hbad.1, hbad.2, if_false, Bool.not_true,
          Bool.false_eq_true]
      · rw [if_pos (by simpa [or_iff_not_imp_left] using hbad)] at hsnoc
        refine .inr ⟨?_, hsnoc⟩
        simp only [contentLengthChar, hspace, if_false]
        split_ifs with h1 h2
        · rfl
        · rfl
        · exact absurd ⟨by simpa using h1, h2⟩ hbad

theorem lengthFold_lt {w : Bytes} {ws : Bool} {n : ℕ} (h : lengthFold w = some (ws, n)) :
    n < ullongMax := by
  have hdigit : ∀ c, isNum c = true → (c-48).toNat ≤ 9 := by
    intro c hc
    obtain ⟨h48, h57⟩ := of_decide_eq_true hc
    have h48' : 48 ≤ c.toNat := UInt8.le_iff_toNat_le.mp h48
    have h57' : c.toNat ≤ 57 := UInt8.le_iff_toNat_le.mp h57
    have hsub : (c-48).toNat = c.toNat-48 := UInt8.toNat_sub_of_le _ _ h48
    omega
  induction w using List.reverseRecOn generalizing ws n with
  | nil => cases h
  | append_singleton pre ch ih =>
    by_cases hpre : pre = []
    · subst hpre
      simp only [List.nil_append, lengthFold, List.foldl_nil] at h
      split_ifs at h with hnum
      obtain ⟨-, rfl⟩ := Prod.mk.inj (Option.some.inj h)
      exact Nat.lt_of_le_of_lt (hdigit ch hnum) (by decide)
    · rw [lengthFold_snoc hpre] at h
      obtain ⟨⟨ws', m⟩, hm, hstep⟩ := Option.bind_eq_some_iff.mp h
      have hlt := ih hm
      simp only at hstep
      split_ifs at hstep with hspace hbad
      · obtain ⟨-, rfl⟩ := Prod.mk.inj (Option.some.inj hstep)
        exact hlt
      · obtain ⟨-, rfl⟩ := Prod.mk.inj (Option.some.inj hstep)
        simp only [Bool.or_eq_true, Bool.not_eq_true', decide_eq_true_eq, not_or] at hbad
        have hd := hdigit ch (by simpa using hbad.1.2)
        have hmax : ullongMax = 18446744073709551615 := by decide
        rw [hmax] at hbad ⊢
        omega

section Length

variable {fr : Frame} {code : ℕ} {k : Bytes}

theorem foldl_lengthStep_none (rest : Bytes) : rest.foldl lengthStep none = none := by
  induction rest with
  | nil => rfl
  | cons c rest ih => exact ih

theorem lengthFold_append {pre : Bytes} (hpre : pre ≠ []) (rest : Bytes) :
    lengthFold (pre ++ rest) = rest.foldl lengthStep (lengthFold pre) := by
  induction rest generalizing pre with
  | nil => rw [List.append_nil, List.foldl_nil]
  | cons c rest ih =>
    rw [← List.singleton_append, ← List.append_assoc, ih (by simp), lengthFold_snoc hpre]
    rfl

theorem lengthFold_prefix {pre rest : Bytes} (hpre : pre ≠ []) {r : Bool × ℕ}
    (h : lengthFold (pre ++ rest) = some r) : ∃ r', lengthFold pre = some r' := by
  cases hfold : lengthFold pre with
  | none =>
    rw [lengthFold_append hpre, hfold, foldl_lengthStep_none] at h
    cases h
  | some r' => exact ⟨r', rfl⟩

theorem InLength.bound {w : Bytes} {ws : Bool} {n : ℕ} {v : View} (hs : v.state = .headerValueLws)
    (h : InLength fr code w v) (hw : lengthFold w = some (ws, n)) :
    Bound { fr with length := some n } code v := by
  obtain ⟨ws', hfold, hhs⟩ := h.value
  rw [hw] at hfold
  obtain ⟨rfl, hn⟩ := Prod.mk.inj (Option.some.inj hfold)
  refine ⟨h.code, .inr ⟨.inl hs, ?_⟩⟩
  have hne : v.headerState ≠ .transferEncodingChunked := by
    rw [hhs]
    split_ifs <;> decide
  rw [commit, if_neg hne]
  exact ⟨h.chunked, h.hasLength, hn.symm⟩

theorem goes_length_rest (bs : Bytes) (htext : ∀ ch ∈ bs, textChar ch = true) (pre : Bytes)
    {r : Bool × ℕ} (h : lengthFold (pre ++ bs) = some r) :
    Goes cfg (fun v => v.state = .headerValue ∧ InLength fr code pre v) bs
      (fun v => v.state = .headerValue ∧ InLength fr code (pre ++ bs) v) := by
  induction bs generalizing pre with
  | nil =>
    rw [List.append_nil]
    exact goes_nil
  | cons ch bs ih =>
    rw [← List.singleton_append, ← List.append_assoc] at h ⊢
    have hone : Goes cfg (fun v => v.state = .headerValue ∧ InLength fr code pre v) [ch]
        (fun v => v.state = .headerValue ∧ InLength fr code (pre ++ [ch]) v) := by
      refine goes_value_char (htext ch (.head bs)) fun p hI => ?_
      rcases inLength_next hI ch with hgo | ⟨-, hnone⟩
      · exact hgo
      · obtain ⟨r', hr'⟩ := lengthFold_prefix (by simp) h
        rw [hnone] at hr'
        cases hr'
    exact hone.append (ih (fun c hc => htext c (.tail ch hc)) (pre ++ [ch]) h)

theorem fails_length_rest (bs : Bytes) (htext : ∀ ch ∈ bs, textChar ch = true) (pre : Bytes)
    (h : lengthFold (pre ++ bs) = none) :
    Fails cfg (fun v => v.state = .headerValue ∧ InLength fr code pre v) bs := by
  induction bs generalizing pre with
  | nil =>
    rintro n p - ⟨-, hI⟩
    obtain ⟨ws, hfold, -⟩ := hI.value
    rw [List.append_nil] at h
    rw [h] at hfold
    cases hfold
  | cons ch bs ih =>
    rw [← List.singleton_append, ← List.append_assoc] at h
    by_cases hnone : lengthFold (pre ++ [ch]) = none
    · refine fails_value_char (htext ch (.head bs)) (fun p hI => ?_) bs
      rcases inLength_next hI ch with ⟨q, -, hq⟩ | ⟨hvalue, -⟩
      · obtain ⟨ws, hfold, -⟩ := hq.value
        rw [hnone] at hfold
        cases hfold
      · exact hvalue
    · have hone : Goes cfg (fun v => v.state = .headerValue ∧ InLength fr code pre v) [ch]
          (fun v => v.state = .headerValue ∧ InLength fr code (pre ++ [ch]) v) := by
        refine goes_value_char (htext ch (.head bs)) fun p hI => ?_
        exact (inLength_next hI ch).resolve_right fun hbad => hnone hbad.2
      exact hone.fails (ih (fun c hc => htext c (.tail ch hc)) (pre ++ [ch]) h)

/-- A first digit, when there has been no `content-length` before. -/
theorem goes_length_start {c : UInt8} (htext : textChar c = true) (hblank : isBlank c = false)
    (hnum : isNum c = true) (hlength : lowerName k = lengthName) (hfr : fr.length = none) :
    Goes cfg (Named .headerValueDiscardWs k fr code) [c]
      (fun v => v.state = .headerValue ∧ InLength fr code [c] v) := by
  refine goes_value_start htext hblank fun p hv => ?_
  have hname : p.headerState = .contentLength := hv.length.mpr hlength
  have hfresh : p.flags.contentlength = false := by
    have hhas := hv.framed.hasLength
    rw [hfr] at hhas
    exact hhas
  refine ⟨{ p with
    state := .headerValue
    index := 0
    flags := { p.flags with contentlength := true }
    contentLength := (c-48).toNat
    headerState := .contentLengthNum }, ?_, rfl, ⟨rfl, rfl, rfl, rfl, fun hp => ?_⟩, by simp,
    ⟨false, ?_, rfl⟩, hv.framed.chunked, rfl, hv.code⟩
  · simp only [headerValueStart, hname, hnum, hfresh, Bool.not_true, Bool.false_eq_true, if_false]
  · exact hp.same rfl
  · simp only [lengthFold, hnum, if_true, List.foldl_nil]
    rfl

theorem fails_length_start {c : UInt8} (htext : textChar c = true) (hblank : isBlank c = false)
    (hbad : isNum c = false ∨ fr.length ≠ none) (hlength : lowerName k = lengthName) (bs : Bytes) :
    Fails cfg (Named .headerValueDiscardWs k fr code) (c::bs) := by
  refine fails_byte (fun n p hp hv => ?_) bs
  have hstate : p.state = .headerValueDiscardWs := hv.state
  have hname : p.headerState = .contentLength := hv.length.mpr hlength
  have hswitch : reexecute cfg p c = headerValueStart p c := by
    rw [reexecute, hstate]
    exact headerValueDiscardWs_start htext hblank p
  rw [hswitch]
  by_cases hnum : isNum c = true
  · have hflag : p.flags.contentlength = true := by
      have hhas : p.flags.contentlength = fr.length.isSome := hv.framed.hasLength
      rw [hhas]
      exact Option.isSome_iff_ne_none.mpr (hbad.resolve_left (by simp [hnum]))
    refine ⟨.UNEXPECTED_CONTENT_LENGTH, { p with state := .headerValue, index := 0 },
      [.mark .headerValue], ?_, by decide⟩
    simp only [headerValueStart, hname, hnum, hflag, Bool.not_true, Bool.false_eq_true, if_false,
      if_true]
  · refine ⟨.INVALID_CONTENT_LENGTH, { p with state := .headerValue, index := 0 },
      [.mark .headerValue], ?_, by decide⟩
    simp only [headerValueStart, hname, hnum, Bool.not_false, if_true]

end Length

end Lamb.HttpHeaderValues
