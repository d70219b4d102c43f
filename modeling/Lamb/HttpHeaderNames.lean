import Lamb.HttpResponseHead

/-!
# Header names under the response parser

A name is followed through the automaton of `s_header_field` with the part of it that
has been read; at its end `content-length` and `transfer-encoding` are told from all
other names.
-/

set_option autoImplicit false

namespace Lamb.HttpHeaderNames
open Lamb.ByteString Lamb.Http Lamb.HttpUrl Lamb.HttpMachine Lamb.HttpParser Lamb.Tokens
open Lamb.HttpResponseHead

variable {cfg : Config}

def nameChar (c : UInt8) : Bool := isAlphanum c || c ∈ ascii "!#$%&'*+-.^_`|~"

theorem nameChar_ne {c d : UInt8} (h : nameChar c = true) (hd : nameChar d = false) : c ≠ d := by
  rintro rfl
  rw [h] at hd
  cases hd

theorem nameChar_token (cfg : Config) {c : UInt8} (h : nameChar c = true) :
    token cfg c = toLower c := by
  have hspace : c ≠ (' ' : Char) := nameChar_ne h (by decide)
  have htokens : tokens c = toLower c := by
    unfold tokens toLower
    split_ifs with hupper hplain
    · rfl
    · rfl
    · refine absurd ?_ hplain
      rcases (Bool.or_eq_true _ _).mp h with ha | hmem
      · exact .inl ha
      · have hc := of_decide_eq_true hmem
        exact .inr (List.mem_cons_of_mem _ hc)
  unfold token strictToken
  rw [if_neg hspace, htokens, ite_self]

theorem toLower_ne_zero {c : UInt8} (h : nameChar c = true) : toLower c ≠ 0 := by
  have hzero : c ≠ 0 := nameChar_ne h (by decide)
  unfold toLower
  split_ifs with hupper
  · obtain ⟨-, hle⟩ := hupper
    intro h0
    have h90 : c.toNat ≤ 90 := UInt8.le_iff_toNat_le.mp hle
    have hsum := congrArg UInt8.toNat h0
    rw [UInt8.toNat_add] at hsum
    have h32 : (32 : UInt8).toNat = 32 := rfl
    have h00 : (0 : UInt8).toNat = 0 := rfl
    omega
  · exact hzero

theorem prefix_snoc {pre name : Bytes} (h : pre <+: name) (hlt : pre.length < name.length)
    (c : UInt8) : pre ++ [c] <+: name ↔ c = name.getD pre.length 0 := by
  obtain ⟨rest, rfl⟩ := h
  cases rest with
  | nil => simp at hlt
  | cons x rest =>
    rw [List.prefix_append_right_inj, List.cons_prefix_cons]
    simp

theorem prefix_of_snoc {pre name : Bytes} {c : UInt8} (h : pre ++ [c] <+: name) : pre <+: name :=
  (List.prefix_append pre [c]).trans h

def lengthName : Bytes := ascii "content-length"

def codingName : Bytes := ascii "transfer-encoding"

/-- The header states on the way to `content-length`. -/
def lengthPath (n : ℕ) : HeaderState :=
  if n = 1 then .C else if n = 2 then .CO else if n = 3 then .CON
  else if n < 14 then .matchingContentLength else .contentLength

def codingPath (n : ℕ) : HeaderState :=
  if n < 17 then .matchingTransferEncoding else .transferEncoding

def lengthStates : List HeaderState := [.C, .CO, .CON, .matchingContentLength, .contentLength]

def codingStates : List HeaderState := [.matchingTransferEncoding, .transferEncoding]

def Tracks (name : Bytes) (path : ℕ → HeaderState) (states : List HeaderState) (pre : Bytes)
    (hs : HeaderState) (i : ℕ) : Prop :=
  (pre <+: name ∧ hs = path pre.length ∧ i+1 = pre.length) ∨ (¬ pre <+: name ∧ hs ∉ states)

def TracksLength : Bytes → HeaderState → ℕ → Prop := Tracks lengthName lengthPath lengthStates

def TracksCoding : Bytes → HeaderState → ℕ → Prop := Tracks codingName codingPath codingStates

def Naming (hs : HeaderState) : Prop :=
  hs ∉ [.contentLengthNum, .contentLengthWs, .matchingTransferEncodingChunked,
    .transferEncodingChunked]

instance decidableNaming (hs : HeaderState) : Decidable (Naming hs) :=
  inferInstanceAs (Decidable (hs ∉ _))

def successors : HeaderState → List HeaderState
  | .C => [.CO, .general]
  | .CO => [.CON, .general]
  | .CON => [.matchingConnection, .matchingContentLength, .general]
  | .matchingConnection => [.general, .connection, .matchingConnection]
  | .matchingProxyConnection => [.general, .connection, .matchingProxyConnection]
  | .matchingContentLength => [.general, .contentLength, .matchingContentLength]
  | .matchingTransferEncoding => [.general, .transferEncoding, .matchingTransferEncoding]
  | .matchingUpgrade => [.general, .upgrade, .matchingUpgrade]
  | hs => [.general, hs]

theorem matchName_next {p : HttpMachine.HttpParser} {hs : HeaderState} (h : p.headerState = hs)
    (name : Bytes) (c : UInt8) (miss done : HeaderState) :
    (matchName p name c miss done).headerState ∈ [miss, done, hs] := by
  simp only [matchName, h]
  split_ifs <;> simp

theorem fieldChar_next (p : HttpMachine.HttpParser) (c ch : UInt8) :
    (fieldChar p c ch).headerState ∈ successors p.headerState := by
  cases h : p.headerState <;> simp only [fieldChar, h]
  case C | CO | CON => split_ifs <;> decide
  case matchingConnection | matchingProxyConnection | matchingContentLength
      | matchingTransferEncoding | matchingUpgrade => exact matchName_next h _ c _ _
  case connection | contentLength | transferEncoding | upgrade =>
    split_ifs
    · exact .head _
    · rw [h]
      exact .tail _ (.head _)
  all_goals exact .tail _ (.head _)

theorem successors_avoid (hs : HeaderState) :
    (Naming hs → ∀ hs' ∈ successors hs, Naming hs') ∧
    (hs ∉ lengthStates → ∀ hs' ∈ successors hs, hs' ∉ lengthStates) ∧
    (hs ∉ codingStates → ∀ hs' ∈ successors hs, hs' ∉ codingStates) := by
  cases hs <;> decide

theorem tracksLength_first (c : UInt8) : TracksLength [c] (firstHeaderState c) 0 := by
  by_cases hc : c = ('c' : Char)
  · subst hc
    exact .inl ⟨by decide, rfl, rfl⟩
  · refine .inr ⟨fun h => hc (List.cons_prefix_cons.mp h).1, ?_⟩
    unfold firstHeaderState
    rw [if_neg hc]
    split_ifs <;> decide

theorem tracksCoding_first (c : UInt8) : TracksCoding [c] (firstHeaderState c) 0 := by
  by_cases hc : c = ('t' : Char)
  · subst hc
    exact .inl ⟨by decide, rfl, rfl⟩
  · refine .inr ⟨fun h => hc (List.cons_prefix_cons.mp h).1, ?_⟩
    unfold firstHeaderState
    simp only [hc, if_false]
    split_ifs <;> decide

theorem firstHeaderState_naming (c : UInt8) : Naming (firstHeaderState c) := by
  unfold firstHeaderState
  split_ifs <;> decide

section Names

variable {p : HttpMachine.HttpParser} {n : ℕ}

theorem matchName_path {name : Bytes} {hs : HeaderState} (h : p.headerState = hs)
    (hi : p.index+1 = n) (hlt : n < name.length) (c : UInt8) (done : HeaderState) :
    (matchName p name c .general done).headerState =
      if c = name.getD n 0 then (if n+1 = name.length then done else hs) else .general := by
  simp only [matchName, hi, h]
  by_cases hc : c = name.getD n 0
  · rw [if_neg (by rintro (h1 | h1) <;> [omega; exact h1 hc]), if_pos hc]
  · rw [if_pos (.inr hc), if_neg hc]

theorem fieldChar_length (h : p.headerState = lengthPath n) (hi : p.index+1 = n) (hlt : n < 14)
    (c ch : UInt8) : (fieldChar p c ch).headerState =
      if c = lengthName.getD n 0 then lengthPath (n+1)
      else if n = 3 ∧ c = ('n' : Char) then .matchingConnection else .general := by
  by_cases hfour : 4 ≤ n
  · have hpath : p.headerState = .matchingContentLength := by
      rw [h]
      unfold lengthPath
      split_ifs <;> first | rfl | omega
    have hlength : lengthName.length = 14 := by decide
    simp only [fieldChar, hpath]
    refine (matchName_path hpath hi (show _ < lengthName.length by omega) c .contentLength).trans ?_
    rw [hlength]
    unfold lengthPath
    split_ifs <;> first | rfl | omega
  · obtain rfl | rfl | rfl : n = 1 ∨ n = 2 ∨ n = 3 := by omega
    · have hchar : lengthName.getD 1 0 = ('o' : Char) := by decide
      simp only [fieldChar, show p.headerState = .C from h, hchar]
      split_ifs <;> first | rfl | omega
    · have hchar : lengthName.getD 2 0 = ('n' : Char) := by decide
      simp only [fieldChar, show p.headerState = .CO from h, hchar]
      split_ifs <;> first | rfl | omega
    · have hchar : lengthName.getD 3 0 = ('t' : Char) := by decide
      simp only [fieldChar, show p.headerState = .CON from h, hchar]
      by_cases hn : c = ('n' : Char)
      · subst hn
        rfl
      · simp only [hn, and_false, if_false]
        rfl

theorem fieldChar_coding (h : p.headerState = codingPath n) (hi : p.index+1 = n) (hlt : n < 17)
    (c ch : UInt8) : (fieldChar p c ch).headerState =
      if c = codingName.getD n 0 then codingPath (n+1) else .general := by
  have hpath : p.headerState = .matchingTransferEncoding := by
    rw [h, codingPath, if_pos hlt]
  have hlength : codingName.length = 17 := by decide
  simp only [fieldChar, hpath]
  refine (matchName_path hpath hi (show _ < codingName.length by omega) c
    .transferEncoding).trans ?_
  refine if_congr Iff.rfl ?_ rfl
  rw [hlength]
  unfold codingPath
  split_ifs <;> first | rfl | omega

theorem fieldChar_index {hs : HeaderState} (h : p.headerState = hs)
    (hhs : hs ∈ [.C, .CO, .CON, .matchingContentLength, .matchingTransferEncoding]) (c ch : UInt8) :
    (fieldChar p c ch).index = p.index+1 := by
  cases hs <;> first
    | exact absurd hhs (by decide)
    | simp only [fieldChar, h, matchName]

theorem Tracks.next {name : Bytes} {path : ℕ → HeaderState} {states : List HeaderState}
    {pre : Bytes} {c ch : UInt8} (h : Tracks name path states pre p.headerState p.index)
    (hindex : pre.length < name.length → p.headerState = path pre.length →
      (fieldChar p c ch).index = p.index+1)
    (hhit : pre.length < name.length → p.headerState = path pre.length →
      p.index+1 = pre.length → c = name.getD pre.length 0 →
      (fieldChar p c ch).headerState = path (pre.length+1))
    (hmiss : pre.length < name.length → p.headerState = path pre.length →
      p.index+1 = pre.length → c ≠ name.getD pre.length 0 →
      (fieldChar p c ch).headerState ∉ states)
    (hend : p.headerState = path name.length → (fieldChar p c ch).headerState ∉ states)
    (hoff : p.headerState ∉ states → (fieldChar p c ch).headerState ∉ states) :
    Tracks name path states (pre ++ [c]) (fieldChar p c ch).headerState
      (fieldChar p c ch).index := by
  rcases h with ⟨hpre, hhs, hi⟩ | ⟨hpre, hhs⟩
  · rcases Nat.lt_or_eq_of_le hpre.length_le with hlt | heq
    · have hc := prefix_snoc hpre hlt c
      by_cases hnext : pre ++ [c] <+: name
      · refine .inl ⟨hnext, ?_, ?_⟩
        · rw [List.length_append, List.length_singleton]
          exact hhit hlt hhs hi (hc.mp hnext)
        · rw [hindex hlt hhs, hi, List.length_append, List.length_singleton]
      · exact .inr ⟨hnext, hmiss hlt hhs hi (mt hc.mpr hnext)⟩
    · refine .inr ⟨fun hp => ?_, hend (heq ▸ hhs)⟩
      have hle := hp.length_le
      rw [List.length_append, List.length_singleton] at hle
      omega
  · exact .inr ⟨fun hp => hpre (prefix_of_snoc hp), hoff hhs⟩

theorem tracksLength_next {pre : Bytes} (hpre : pre ≠ [])
    (h : TracksLength pre p.headerState p.index) (c : UInt8) {ch : UInt8}
    (hch : ch ≠ (' ' : Char)) : TracksLength (pre ++ [c]) (fieldChar p c ch).headerState
      (fieldChar p c ch).index := by
  have hpos : 0 < pre.length := List.length_pos_iff.mpr hpre
  have hname : lengthName.length = 14 := by decide
  refine Tracks.next h (fun hlt hhs => ?_) (fun hlt hhs hi hc => ?_) (fun hlt hhs hi hc => ?_)
    (fun hhs => ?_) (fun hhs => ?_)
  · refine fieldChar_index hhs ?_ c ch
    unfold lengthPath
    split_ifs <;> first | decide | omega
  · rw [fieldChar_length hhs hi (hname ▸ hlt), if_pos hc]
  · rw [fieldChar_length hhs hi (hname ▸ hlt), if_neg hc]
    split_ifs <;> decide
  · have hdone : p.headerState = .contentLength := by
      rw [hhs, hname]
      rfl
    simp only [fieldChar, hdone, hch, ne_eq, not_false_eq_true, if_true]
    decide
  · exact (successors_avoid p.headerState).2.1 hhs _ (fieldChar_next p c ch)

theorem tracksCoding_next {pre : Bytes} (h : TracksCoding pre p.headerState p.index) (c : UInt8)
    {ch : UInt8} (hch : ch ≠ (' ' : Char)) : TracksCoding (pre ++ [c])
      (fieldChar p c ch).headerState (fieldChar p c ch).index := by
  have hname : codingName.length = 17 := by decide
  refine Tracks.next h (fun hlt hhs => ?_) (fun hlt hhs hi hc => ?_) (fun hlt hhs hi hc => ?_)
    (fun hhs => ?_) (fun hhs => ?_)
  · refine fieldChar_index hhs ?_ c ch
    rw [codingPath, if_pos (hname ▸ hlt)]
    decide
  · rw [fieldChar_coding hhs hi (hname ▸ hlt), if_pos hc]
  · rw [fieldChar_coding hhs hi (hname ▸ hlt), if_neg hc]
    decide
  · have hdone : p.headerState = .transferEncoding := by
      rw [hhs, hname]
      rfl
    simp only [fieldChar, hdone, hch, ne_eq, not_false_eq_true, if_true]
    decide
  · exact (successors_avoid p.headerState).2.2 hhs _ (fieldChar_next p c ch)

/-- At the end of a name: `content-length` and `transfer-encoding` are recognized, and
nothing else is taken for them. -/
theorem tracksLength_end {pre : Bytes} {hs : HeaderState} {i : ℕ} (h : TracksLength pre hs i) :
    hs = .contentLength ↔ pre = lengthName := by
  rcases h with ⟨hpre, rfl, -⟩ | ⟨hpre, hhs⟩
  · have hname : lengthName.length = 14 := by decide
    constructor
    · intro h
      refine hpre.eq_of_length_le ?_
      unfold lengthPath at h
      split_ifs at h
      omega
    · rintro rfl
      rfl
  · refine iff_of_false ?_ ?_
    · rintro rfl
      exact hhs (by decide)
    · rintro rfl
      exact hpre (List.prefix_refl _)

theorem tracksCoding_end {pre : Bytes} {hs : HeaderState} {i : ℕ} (h : TracksCoding pre hs i) :
    hs = .transferEncoding ↔ pre = codingName := by
  rcases h with ⟨hpre, rfl, -⟩ | ⟨hpre, hhs⟩
  · have hname : codingName.length = 17 := by decide
    constructor
    · intro h
      refine hpre.eq_of_length_le ?_
      unfold codingPath at h
      split_ifs at h
      omega
    · rintro rfl
      rfl
  · refine iff_of_false ?_ ?_
    · rintro rfl
      exact hhs (by decide)
    · rintro rfl
      exact hpre (List.prefix_refl _)

end Names

/-! ## Between two lines -/

def commit (v : View) : View :=
  if v.headerState = .transferEncodingChunked then { v with chunked := true } else v

theorem view_commitHeader (p : HttpMachine.HttpParser) : view p.commitHeader = commit (view p) := by
  cases h : p.headerState <;> simp [HttpMachine.HttpParser.commitHeader, h, view, commit]

def Bound (fr : Frame) (code : ℕ) (v : View) : Prop :=
  v.statusCode = code ∧
    (v.state = .headerFieldStart ∧ Framed fr v ∨
      (v.state = .headerValueLws ∨
        v.state = .headerValueDiscardLws ∧ v.headerState ≠ .contentLength) ∧
        Framed fr (commit v))

def nonblank (c : UInt8) : Prop := c ≠ (' ' : Char) ∧ c ≠ ('\t' : Char)

theorem after_nil (o : Outcome) : o.after [] = o := by cases o <;> rfl

theorem commitHeader_counted {n : ℕ} {p : HttpMachine.HttpParser} (hp : Counted cfg n p)
    (hs : p.state ≠ .headerField ∧ p.state ≠ .headerValue) :
    Counted cfg n { p.commitHeader with state := .headerFieldStart } := by
  have h0 := hp.home hs.1 hs.2
  obtain ⟨⟨htype, hmethod, herrno, hupgrade, hskip, htrailing⟩, hroom, hword, hahead, -⟩ := hp
  cases h : p.headerState <;> simp only [HttpMachine.HttpParser.commitHeader, h] <;>
    exact ⟨⟨htype, hmethod, herrno, hupgrade, hskip, htrailing⟩, hroom, hword, hahead,
    fun _ _ => h0⟩

/-- The next line is read as at the start of a name, with the last value committed. -/
theorem bound_start {n : ℕ} {p : HttpMachine.HttpParser} {fr : Frame} {code : ℕ} {ch : UInt8}
    (hp : Counted cfg n p) (h : Bound fr code (view p)) (hch : nonblank ch) :
    ∃ p' pre, reexecute cfg p ch = (headerFieldStart cfg p' ch).after pre ∧
      (∀ op ∈ pre, HeadOp op) ∧ Counted cfg n p' ∧ At .headerFieldStart fr code (view p') := by
  have hch' : ¬ (ch = (' ' : Char) ∨ ch = ('\t' : Char)) := not_or.mpr hch
  obtain ⟨hcode, ⟨hstate, hframe⟩ | ⟨hstate | ⟨hstate, hlength⟩, hframe⟩⟩ := h
  · refine ⟨p, [], ?_, by simp, hp, hstate, hframe, hcode⟩
    have hstate' : p.state = .headerFieldStart := hstate
    rw [after_nil, reexecute, hstate']
  all_goals
    have hcommit : Framed fr (view p.commitHeader) ∧ (view p.commitHeader).statusCode = code := by
      rw [view_commitHeader]
      refine ⟨hframe, ?_⟩
      unfold commit
      split_ifs <;> exact hcode
    have hframe' : At .headerFieldStart fr code
        (view { p.commitHeader with state := .headerFieldStart }) :=
      ⟨rfl, ⟨hcommit.1.chunked, hcommit.1.hasLength, hcommit.1.contentLength⟩, hcommit.2⟩
  · have hstate' : p.state = .headerValueLws := hstate
    refine ⟨{ p.commitHeader with state := .headerFieldStart }, [], ?_, by simp,
      commitHeader_counted hp (by rw [hstate']; decide), hframe'⟩
    rw [after_nil, reexecute, hstate']
    simp only [headerValueLws, hch', if_false]
  · have hstate' : p.state = .headerValueDiscardLws := hstate
    have hlength' : ¬ p.headerState = .contentLength := hlength
    refine ⟨{ p.commitHeader with state := .headerFieldStart },
      [.mark .headerValue, .report .headerValue false], ?_, by simp [HeadOp],
      commitHeader_counted hp (by rw [hstate']; decide), hframe'⟩
    rw [reexecute, hstate']
    simp only [headerValueDiscardLws, hch', hlength', if_false]

theorem goes_blank_line (fr : Frame) (code : ℕ) :
    Goes cfg (Bound fr code) [CR] (At .headersAlmostDone fr code) := by
  refine goes_byte fun n p hp h => ?_
  obtain ⟨p', pre, hstart, hpre, hp', hstate, hframe, hcode⟩ := bound_start hp h
    (show nonblank CR from ⟨by decide, by decide⟩)
  have hstate' : p'.state = .headerFieldStart := hstate
  refine ⟨{ p' with state := .headersAlmostDone }, pre ++ [], hstart.trans rfl,
    by rw [List.append_nil]; exact hpre, hp'.reading (by rw [hstate']; decide) ?_ rfl rfl rfl rfl,
    rfl, ⟨hframe.chunked, hframe.hasLength, hframe.contentLength⟩, hcode⟩
  exact hp'.same rfl

/-- A `content-length` without a value. -/
theorem fails_empty_length (ch : UInt8) (hch : nonblank ch) (bs : Bytes) :
    Fails cfg (fun v => v.state = .headerValueDiscardLws ∧ v.headerState = .contentLength)
      (ch::bs) := by
  refine fails_byte (fun n p _ hv => ?_) bs
  obtain ⟨hstate, hlength⟩ := hv
  have hstate' : p.state = .headerValueDiscardLws := hstate
  have hlength' : p.headerState = .contentLength := hlength
  have hch' : ¬ (ch = (' ' : Char) ∨ ch = ('\t' : Char)) := not_or.mpr hch
  refine ⟨.INVALID_CONTENT_LENGTH, p, [], ?_, by decide⟩
  rw [reexecute, hstate']
  simp only [headerValueDiscardLws, hch', hlength', if_false, if_true]
  rfl

/-! ## A name -/

def LegalName (k : Bytes) : Prop := k ≠ [] ∧ ∀ c ∈ k, nameChar c = true

instance decidableLegalName (k : Bytes) : Decidable (LegalName k) :=
  decidable_of_iff (k ≠ [] ∧ k.all nameChar = true) (and_congr_right' List.all_eq_true)

def lowerName (k : Bytes) : Bytes := k.map toLower

structure InName (pre : Bytes) (fr : Frame) (code : ℕ) (v : View) : Prop where
  state : v.state = .headerField
  nonempty : pre ≠ []
  length : TracksLength (lowerName pre) v.headerState v.index
  coding : TracksCoding (lowerName pre) v.headerState v.index
  naming : Naming v.headerState
  framed : Framed fr v
  code : v.statusCode = code

structure Named (s : State) (k : Bytes) (fr : Frame) (code : ℕ) (v : View) : Prop where
  state : v.state = s
  length : v.headerState = .contentLength ↔ lowerName k = lengthName
  coding : v.headerState = .transferEncoding ↔ lowerName k = codingName
  naming : Naming v.headerState
  framed : Framed fr v
  code : v.statusCode = code

section Name

variable {fr : Frame} {code : ℕ} {c : UInt8} {pre : Bytes}

theorem nameChar_nonblank (h : nameChar c = true) : nonblank c :=
  ⟨nameChar_ne h (by decide), nameChar_ne h (by decide)⟩

theorem goes_name_start (h : nameChar c = true) :
    Goes cfg (Bound fr code) [c] (InName [c] fr code) := by
  refine goes_byte fun n p hp hv => ?_
  obtain ⟨p', ops, hstart, hops, hp', hstate, hframe, hcode⟩ :=
    bound_start hp hv (nameChar_nonblank h)
  have hstate' : p'.state = .headerFieldStart := hstate
  have hcr : c ≠ CR := nameChar_ne h (by decide)
  have hlf : c ≠ LF := nameChar_ne h (by decide)
  let q : HttpMachine.HttpParser := { p' with
    index := 0
    state := .headerField
    headerState := firstHeaderState (toLower c) }
  have hgo : reexecute cfg p c = .go q (ops ++ [.mark .headerField]) := by
    rw [hstart]
    simp only [headerFieldStart, hcr, hlf, nameChar_token cfg h, toLower_ne_zero h, if_false]
    rfl
  refine ⟨q, ops ++ [.mark .headerField], hgo, ?_,
    hp'.reading (by rw [hstate']; decide) ?_ rfl rfl rfl rfl, rfl, by simp, ?_, ?_, ?_, ?_, hcode⟩
  · intro op hop
    rcases List.mem_append.mp hop with hmem | hmem
    · exact hops op hmem
    · obtain rfl := List.mem_singleton.mp hmem
      simp [HeadOp]
  · exact hp'.same rfl
  · exact tracksLength_first (toLower c)
  · exact tracksCoding_first (toLower c)
  · exact firstHeaderState_naming (toLower c)
  · exact ⟨hframe.chunked, hframe.hasLength, hframe.contentLength⟩

theorem fieldChar_eq (p : HttpMachine.HttpParser) (c ch : UInt8) :
    ∃ i hs, fieldChar p c ch = { p with index := i, headerState := hs } := by
  unfold fieldChar
  split <;> try split_ifs
  all_goals exact ⟨_, _, rfl⟩

theorem goes_name_char (h : nameChar c = true) :
    Goes cfg (InName pre fr code) [c] (InName (pre ++ [c]) fr code) := by
  refine goes_byte fun n p hp hv => ?_
  have hstate : p.state = .headerField := hv.state
  have hspace : c ≠ (' ' : Char) := nameChar_ne h (by decide)
  have hgo : reexecute cfg p c =
      .go { fieldChar p (toLower c) c with segment := p.segment+1 } [] := by
    have hswitch : reexecute cfg p c = headerField cfg p c := by rw [reexecute, hstate]
    rw [hswitch]
    simp only [headerField, nameChar_token cfg h, toLower_ne_zero h, if_false]
  have hlower : lowerName (pre ++ [c]) = lowerName pre ++ [toLower c] := List.map_append
  have hpre : lowerName pre ≠ [] := fun h0 => hv.nonempty (List.map_eq_nil_iff.mp h0)
  have hlength : TracksLength (lowerName (pre ++ [c])) (fieldChar p (toLower c) c).headerState
      (fieldChar p (toLower c) c).index :=
    hlower ▸ tracksLength_next hpre hv.length (toLower c) hspace
  have hcoding : TracksCoding (lowerName (pre ++ [c])) (fieldChar p (toLower c) c).headerState
      (fieldChar p (toLower c) c).index := hlower ▸ tracksCoding_next hv.coding (toLower c) hspace
  have hnaming : Naming (fieldChar p (toLower c) c).headerState :=
    (successors_avoid p.headerState).1 hv.naming _ (fieldChar_next p (toLower c) c)
  have hroom := hp.room
  have hword := hp.word
  have hahead := hp.ahead
  obtain ⟨i, hs, heq⟩ := fieldChar_eq p (toLower c) c
  rw [heq] at hgo hlength hcoding hnaming
  refine ⟨_, [], hgo, by simp, ⟨?_, ?_, ?_, ?_, ?_, ?_⟩, hstate, by simp, hlength, hcoding,
    hnaming, ⟨hv.framed.chunked, hv.framed.hasLength, hv.framed.contentLength⟩, hv.code⟩
  · exact hp.same rfl
  · simp only [spent]
    omega
  · simp only [spent]
    omega
  · simp only [spent]
    omega
  · intro h1
    exact absurd hstate h1
  · rw [hstate]
    rfl

theorem goes_colon :
    Goes cfg (InName pre fr code) [58] (Named .headerValueDiscardWs pre fr code) := by
  refine goes_byte fun n p hp hv => ?_
  have hstate : p.state = .headerField := hv.state
  have hroom := hp.room
  have hword := hp.word
  have hahead := hp.ahead
  have htoken : token cfg 58 = 0 := by
    cases h : cfg.strict <;> simp only [token, h] <;> rfl
  have hgo : reexecute cfg p 58 =
      .go { p with segment := 0, nread := p.nread+p.segment, state := .headerValueDiscardWs }
        [.report .headerField false] := by
    have hswitch : reexecute cfg p 58 = headerField cfg p 58 := by rw [reexecute, hstate]
    have hmod : (p.nread+p.segment) % 2^32 = p.nread+p.segment := Nat.mod_eq_of_lt (by omega)
    rw [hswitch]
    simp only [headerField, htoken, if_true, countHeaderSize, hmod]
    rw [if_neg (by omega)]
    rfl
  refine ⟨_, _, hgo, by simp [HeadOp], ⟨?_, ?_, ?_, ?_, fun _ _ => rfl, rfl⟩, rfl,
    tracksLength_end hv.length, tracksCoding_end hv.coding, hv.naming,
    ⟨hv.framed.chunked, hv.framed.hasLength, hv.framed.contentLength⟩, hv.code⟩
  · exact hp.same rfl
  · simp only [spent]
    omega
  · simp only [spent]
    omega
  · simp only [spent]
    omega

theorem goes_name {k : Bytes} (h : LegalName k) :
    Goes cfg (Bound fr code) (k ++ [58]) (Named .headerValueDiscardWs k fr code) := by
  obtain ⟨hne, hchars⟩ := h
  cases k with
  | nil => exact absurd rfl hne
  | cons c rest =>
    have hrest : Goes cfg (InName [c] fr code) rest (InName ([c] ++ rest) fr code) :=
      goes_prefix (fun pre => InName pre fr code)
        (fun pre ch hch => goes_name_char (hchars ch (.tail c hch))) [c]
    exact (goes_name_start (hchars c (.head rest))).cons
      (hrest.append goes_colon)

end Name

end Lamb.HttpHeaderNames
