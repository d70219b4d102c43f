import Lamb.ByteStream
import Lamb.HttpTokenCuts

/-!
# HttpSession

`recvRequest` reads from the connection into a buffer of its own until a new parser
has a whole request. What the parser did not take is kept at the front of the buffer
for the next read, and is gone with the buffer when the request is returned. A
request is received as it was sent when its last byte is the last byte of a read and
the other reads end between tokens.
-/

set_option autoImplicit false

namespace Lamb.HttpSession
open Lamb.ByteString Lamb.ByteStream Lamb.Http Lamb.HttpUrl Lamb.HttpMachine Lamb.HttpParser
open Lamb.HttpTrace Lamb.HttpCalls Lamb.HttpSegmentation Lamb.HttpCallInvariants Lamb.HttpTokenCuts
open Lamb.Tokens

/-- The first `len - nparse` bytes of the buffer after `execute`: it moves the bytes
that were not parsed to the front unless it found an upgrade. -/
def leftover (r : HttpRequestParser) (data : Bytes) (nparse : ℕ) : Bytes :=
  if r.parser.upgrade then data.take (data.length-nparse) else data.drop nparse

/-- The loop of `recvRequest`; `data` are the first `offset` bytes of the buffer.
Every iteration that goes on has read a byte. -/
def recvLoop (cfg : Config) (buffSize : ℕ) :
    ℕ → HttpRequestParser → Bytes → Stream → Option HttpRequest × Stream
  | 0, _, _, s => (none, s)
  | fuel+1, parser, data, s =>
    match s.read (buffSize-data.length) with
    | (len, got, s') =>
      if len ≤ 0 then (none, s'.close)
      else match parser.execute cfg (data ++ got) with
      | (parser', nparse) =>
        if parser'.hasError then (none, s'.close)
        else
          let data' := leftover parser' (data ++ got) nparse
          if toInt data'.length = toInt buffSize then (none, s'.close)
          else if parser'.sink.finished then (some parser'.sink.data.init, s')
          else recvLoop cfg buffSize fuel parser' data' s'

/-- `HttpSession::recvRequest`. -/
def recvRequest (cfg : Config) (buffSize : ℕ) (s : Stream) : Option HttpRequest × Stream :=
  recvLoop cfg buffSize (s.pending.length+1) .new [] s

/-- Successive calls of `recvRequest`. -/
def recvRequests (cfg : Config) (buffSize : ℕ) : ℕ → Stream → List (Option HttpRequest) × Stream
  | 0, s => ([], s)
  | n+1, s =>
    match recvRequest cfg buffSize s with
    | (r, s') =>
      match recvRequests cfg buffSize n s' with
      | (rs, s'') => (r::rs, s'')

/-- The bytes that successive reads into an empty buffer of size `n` deliver. -/
inductive Reads (n : ℕ) : Stream → List Bytes → Stream → Prop where
  | done (s : Stream) : Reads n s [] s
  | read (s s' s'' : Stream) (len : ℤ) (c : Bytes) (cs : List Bytes)
      (h : s.read n = (len, c, s')) (hlen : 0 < len) (hrest : Reads n s' cs s'') :
      Reads n s (c::cs) s''

/-- A read takes its bytes from the front of the pending ones. -/
theorem read_pending (s s' : Stream) (n : ℕ) (len : ℤ) (c : Bytes) (h : s.read n = (len, c, s'))
    (hlen : 0 < len) : s.pending = c ++ s'.pending ∧ len = c.length ∧ s'.closed = false := by
  unfold Stream.read at h
  split_ifs at h with hclosed
  · cases h
    omega
  · split at h
    · cases h
      omega
    · next p rest hin =>
      split_ifs at h with hlt
      · cases h
        refine ⟨?_, ?_, by simpa using hclosed⟩
        · simp only [Stream.pending, hin, Piece.drop, List.flatMap_cons]
          rw [← List.append_assoc, List.take_append_drop]
        · simp only [List.length_take]
          omega
      · cases h
        refine ⟨?_, rfl, by simpa using hclosed⟩
        simp [Stream.pending, hin]

theorem reads_pending (n : ℕ) (s s' : Stream) (cs : List Bytes) (h : Reads n s cs s') :
    s.pending = cs.flatten ++ s'.pending := by
  induction h with
  | done s => rfl
  | read s s' s'' len c cs h hlen hrest ih =>
    rw [(read_pending s s' n len c h hlen).1, ih, List.flatten_cons, List.append_assoc]

theorem reads_append (n : ℕ) (cs ds : List Bytes) (s s'' : Stream)
    (h : Reads n s (cs ++ ds) s'') : ∃ s', Reads n s cs s' ∧ Reads n s' ds s'' := by
  induction cs generalizing s with
  | nil => exact ⟨s, .done s, h⟩
  | cons c cs ih =>
    cases h with
    | read _ s₁ _ len _ _ hread hlen hrest =>
      obtain ⟨s', hcs, hds⟩ := ih s₁ hrest
      exact ⟨s', .read s s₁ s' len c cs hread hlen hcs, hds⟩

section
variable {σ : Type} {cfg : Config} {h : Settings σ}

theorem read_live_parsed (bs : Bytes) (m : Call σ) (hl : (read cfg h bs m).live = true) :
    (read cfg h bs m).parsed = m.parsed+bs.length := by
  induction bs generalizing m with
  | nil => rfl
  | cons ch bs ih =>
    obtain ⟨-, p, ops, b, -, -, hstep⟩ := step_live m ch (read_cons_live ch bs m hl)
    have hrest := ih (m.step cfg h ch) hl
    have hone : (m.step cfg h ch).parsed = m.parsed+1 := by rw [hstep]
    calc (read cfg h bs (m.step cfg h ch)).parsed = m.parsed+1+bs.length := by rw [hrest, hone]
      _ = m.parsed+(ch::bs).length := by rw [List.length_cons]; omega

/-- A byte is parsed when the machine has no error after it. -/
theorem step_ok_parsed (m : Call σ) (ch : UInt8) (hs : Sound m.parser m.buffers)
    (hm : m.live = true) (he : (m.step cfg h ch).parser.httpErrno = .OK) :
    (m.step cfg h ch).parsed = m.parsed+1 := by
  have hord := byte_ordered cfg m.parser ch hs.settled
  simp only [Call.step, hm, Bool.not_true, Bool.false_eq_true, if_false] at he ⊢
  cases hbyte : byte cfg m.parser ch with
  | go p ops =>
    simp only [hbyte] at he ⊢
    split <;> rfl
  | leave p ops =>
    simp only [hbyte] at he ⊢
    split <;> rfl
  | error e p ops =>
    rw [hbyte] at hord
    simp only [hbyte] at he
    split at he
    · exact absurd he hord.1
    · exact absurd he (callbackErrno_ne _)

theorem finish_ok_parsed (m : Call σ) (he : (m.finish cfg h).parser.httpErrno = .OK) :
    (m.finish cfg h).parsed = m.parsed := by
  cases hm : m.live with
  | false => simp only [Call.finish, hm, Bool.not_false, if_true]
  | true =>
    rcases @finish_live σ cfg h m hm with ⟨hover, -⟩ | ⟨n, b, failed, -, hfinish⟩
    · exact absurd (hover.symm.trans he) (by decide)
    · rw [hfinish]
      cases failed <;> rfl

/-- Behind an interruption all bytes are parsed that are parsed without it. -/
theorem sim_parsed {D : Token → Prop} (hD : Cuttable cfg h D) {u v : Call σ} (hs : Sim h D u v)
    (cs : Bytes) (ch : UInt8) (hl : (read cfg h cs u).live = true)
    (he : ((read cfg h (cs ++ [ch]) v).finish cfg h).parser.httpErrno = .OK) :
    ((read cfg h (cs ++ [ch]) v).finish cfg h).parsed = v.parsed+(cs ++ [ch]).length := by
  have hsim := sim_read hD cs u v hs hl
  have hsound : Sound (read cfg h cs v).parser (read cfg h cs v).buffers := by
    rw [hsim.parser]
    exact hsim.sound'
  have hcs := read_live_parsed cs v hsim.live'
  have hlast : read cfg h (cs ++ [ch]) v = (read cfg h cs v).step cfg h ch := by
    rw [read_append]
    rfl
  rw [finish_ok_parsed _ he]
  rw [hlast] at he ⊢
  have herrno : ((read cfg h cs v).step cfg h ch).parser.httpErrno = .OK := by
    cases hdead : ((read cfg h cs v).step cfg h ch).live with
    | true => exact (sound_step _ ch hsound hdead).settled.errno
    | false => simpa only [Call.finish, hdead, Bool.not_false, if_true] using he
  rw [step_ok_parsed _ ch hsound hsim.live' herrno, hcs, List.length_append]
  rfl

/-- A call that goes on with bytes that one call would have parsed parses them. -/
theorem chunk_parsed {D : Token → Prop} (hD : Cuttable cfg h D) (type : ParserType) (d : σ)
    (as c : Bytes) (has : as ≠ []) (hc : c ≠ [])
    (hsafe : ∀ t, home (phase (scan cfg (.init type) as).state) = some t → D t)
    (hp : (read cfg h (as ++ c) (.begin (.init type) d)).parsed = (as ++ c).length)
    (he : (resume cfg h (resume cfg h (.init type, d) as) c).1.httpErrno = .OK) :
    (execute cfg h (resume cfg h (.init type, d) as).1 (resume cfg h (.init type, d) as).2 c).2.2 =
      c.length := by
  have hwhole := hp.trans (Nat.zero_add _).symm
  obtain ⟨hl, -⟩ := read_before as c _ hc hwhole
  have hsound := read_sound as _ (sound_begin type d) hl
  have hscan := read_scan as _ hl
  obtain ⟨hparser, hsim⟩ := sim_interrupt hD ⟨hl, hl, rfl, hsound, hsound, .inl rfl⟩
    (by rw [hscan]; exact hsafe)
  rw [← resume_read _ d as rfl has] at hparser hsim
  obtain ⟨cs, ch, rfl⟩ : ∃ cs ch, c = cs ++ [ch] :=
    ⟨c.dropLast, c.getLast hc, (List.dropLast_concat_getLast hc).symm⟩
  have hmost : (read cfg h cs (read cfg h as (.begin (.init type) d))).live = true := by
    rw [← read_append]
    rw [← List.append_assoc] at hwhole
    exact (read_before (as ++ cs) [ch] _ (List.cons_ne_nil ch []) hwhole).1
  rw [← hparser] at hsim
  have herrno : (resume cfg h (.init type, d) as).1.httpErrno = .OK := by
    rw [hparser]
    exact hsound.settled.errno
  rw [execute_read _ _ _ herrno hc]
  have he' := he
  rw [← Prod.mk.eta (p := resume cfg h (.init type, d) as), resume_read _ _ _ herrno hc] at he'
  exact (sim_parsed hD hsim cs ch hmost he').trans (Nat.zero_add _)

end

section
variable {cfg : Config}

theorem request_parsed (r : HttpRequestParser) (s : HttpMachine.HttpParser × RequestSink)
    (c : Bytes) (hr : Matches r s) :
    (r.execute cfg c).2 = (execute cfg (requestSettings cfg) s.1 s.2 c).2.2 := by
  have hcall : (r.execute cfg c).2 =
      (execute cfg (requestSettings cfg) r.parser r.sink c).2.2 := by
    simp only [HttpRequestParser.execute]
    split_ifs <;> rfl
  rw [hcall, hr.parser]
  rcases hr.sink with hd | hd
  · rw [hd]
  · rw [hd, execute_mapData noteUpgrade_unnoticed]

theorem matches_hasError {r : HttpRequestParser} {s : HttpMachine.HttpParser × RequestSink}
    (hr : Matches r s) : r.hasError = false := by
  simp only [HttpRequestParser.hasError, hr.error, ne_eq, not_true_eq_false, decide_false]

theorem matches_finished {r : HttpRequestParser} {s : HttpMachine.HttpParser × RequestSink}
    (hr : Matches r s) : r.sink.finished = s.2.finished := by
  rcases hr.sink with hd | hd
  · rw [hd]
  · rw [hd]
    rfl

/-- The beginning of a request, up to a place between two tokens. -/
theorem accepts_take (as bs : Bytes) (hbs : bs ≠ []) (ha : AcceptsRequest cfg (as ++ bs))
    (hcut : cutsToken .request (scan cfg (.init .request) as).state = false) :
    AcceptsRequest cfg as := by
  by_cases has : as = []
  · subst has
    exact ⟨rfl, rfl⟩
  · obtain ⟨hp, -⟩ := ha.errno
    rw [execute_read _ _ _ rfl (List.append_ne_nil_of_left_ne_nil has bs)] at hp
    have hread := finish_whole (as ++ bs) _ (hp.trans (Nat.zero_add _).symm)
    obtain ⟨hl, -⟩ := read_before as bs _ hbs hread
    have hsound := read_sound as _ (sound_begin .request _) hl
    have hscan := read_scan as _ hl
    obtain ⟨hparser, -⟩ := sim_interrupt request_cuttable
      ⟨hl, hl, rfl, hsound, hsound, .inl rfl⟩ (by rw [hscan]; exact spare_home .request _ hcut)
    have hok : ((read cfg (requestSettings cfg) as (.begin (.init .request)
        HttpRequestParser.new.sink)).finish cfg (requestSettings cfg)).parser.httpErrno = .OK := by
      have herrno := congrArg HttpMachine.HttpParser.httpErrno hparser
      exact herrno.trans hsound.settled.errno
    constructor
    · refine matches_hasError (matches_execute .new _ as matches_new ?_)
      rw [resume_read _ _ as rfl has]
      exact hok
    · rw [request_parsed .new _ as matches_new, execute_read _ _ as rfl has]
      exact (finish_ok_parsed _ hok).trans ((read_live_parsed as _ hl).trans (Nat.zero_add _))

structure CompleteRequest (cfg : Config) (bs : Bytes) : Prop where
  accepts : AcceptsRequest cfg bs
  finished : (HttpRequestParser.new.execute cfg bs).1.sink.finished = true
  unfinished : ∀ i < bs.length,
    (HttpRequestParser.new.execute cfg (bs.take i)).1.sink.finished = false

/-- A request that arrives in reads of its own, none of which but the last ends in
a token that must not be cut. -/
structure Delivery (cfg : Config) where
  reads : List Bytes
  nonempty : ∀ c ∈ reads, c ≠ []
  complete : CompleteRequest cfg reads.flatten
  between : CutBetween cfg .request reads

/-- The request as a parser sees it that is given all of it at once. -/
def Delivery.request (d : Delivery cfg) : HttpRequest :=
  (HttpRequestParser.new.execute cfg d.reads.flatten).1.sink.data.init

def content (r : HttpRequest) : HttpRequest := { r with websocket := false }

theorem content_init (r r' : HttpRequest) (h : content r = content r') :
    content r.init = content r'.init := by
  have hinit : ∀ r : HttpRequest, content r.init = (content r).init := by
    intro r
    have hget : (content r).getHeader (ascii "connection") = r.getHeader (ascii "connection") := rfl
    simp only [HttpRequest.init, hget]
    split_ifs <;> rfl
  rw [hinit, hinit, h]

theorem matches_content {r r' : HttpRequestParser} {s : HttpMachine.HttpParser × RequestSink}
    (hr : Matches r s) (hr' : Matches r' s) :
    content r.sink.data = content r'.sink.data := by
  rcases hr.sink with hd | hd <;> rcases hr'.sink with hd' | hd' <;> rw [hd, hd'] <;> rfl

/-- What the parser of a session looks like after some of the reads of a request. -/
theorem delivery_take (d : Delivery cfg) (done rest : List Bytes) (hd : d.reads = done ++ rest) :
    AcceptsRequest cfg done.flatten ∧ CutBetween cfg .request done := by
  have hcut : CutBetween cfg .request done := by
    intro i hi hlt
    have hsafe := d.between i hi (by rw [hd, List.length_append]; omega)
    rw [hd, List.take_append_of_le_length (le_of_lt hlt)] at hsafe
    exact hsafe
  refine ⟨?_, hcut⟩
  by_cases hrest : rest = []
  · subst hrest
    rw [List.append_nil] at hd
    rw [← hd]
    exact d.complete.accepts
  · by_cases hdone : done = []
    · subst hdone
      exact ⟨rfl, rfl⟩
    · have hne : ∀ c ∈ rest, c ≠ [] := by
        intro c hc
        exact d.nonempty c (by rw [hd]; exact List.mem_append_right done hc)
      have hpos := List.length_pos_iff.mpr hdone
      have hpos' := List.length_pos_iff.mpr hrest
      have hsafe := d.between done.length hpos (by rw [hd, List.length_append]; omega)
      rw [hd, List.take_left] at hsafe
      have ha := d.complete.accepts
      rw [hd, List.flatten_append] at ha
      exact accepts_take done.flatten rest.flatten (flatten_ne_nil hne hrest) ha hsafe

theorem pair_parsed (as c : Bytes) (has : as ≠ []) (hc : c ≠ []) (ha : AcceptsRequest cfg (as ++ c))
    (hcut : cutsToken .request (scan cfg (.init .request) as).state = false) :
    (execute cfg (requestSettings cfg)
      (resume cfg (requestSettings cfg) (.init .request, HttpRequestParser.new.sink) as).1
      (resume cfg (requestSettings cfg) (.init .request, HttpRequestParser.new.sink) as).2 c).2.2 =
      c.length := by
  obtain ⟨hp, he⟩ := ha.errno
  have hpair : [as, c].flatten = as ++ c := by simp
  have hsafe : CutBetween cfg .request [as, c] := by
    intro i hi hlt
    obtain rfl : i = 1 := by
      simp only [List.length_cons, List.length_nil] at hlt
      omega
    simpa using hcut
  have htwo := resume_cut .request request_cuttable HttpRequestParser.new.sink [as, c]
    (by simp [has, hc]) hsafe (by rw [hpair]; exact hp) (by rw [hpair]; exact he)
  rw [hpair] at htwo
  refine chunk_parsed request_cuttable .request _ as c has hc (spare_home .request _ hcut) ?_ ?_
  · rw [execute_read _ _ _ rfl (List.append_ne_nil_of_left_ne_nil has c)] at hp
    exact (finish_whole (as ++ c) _ (hp.trans (Nat.zero_add _).symm)).trans (Nat.zero_add _)
  · change (List.foldl (resume cfg (requestSettings cfg)) _ [as, c]).1.httpErrno = .OK
    rw [htwo]
    exact he

theorem delivery_step (d : Delivery cfg) (done : List Bytes) (c : Bytes) (rest : List Bytes)
    (hd : d.reads = done ++ c::rest) :
    Matches (feedRequest cfg .new (done ++ [c])) (resume cfg (requestSettings cfg)
      (.init .request, HttpRequestParser.new.sink) (done ++ [c]).flatten) ∧
    ((feedRequest cfg .new done).execute cfg c).2 = c.length ∧
    (feedRequest cfg .new (done ++ [c])).sink.finished = decide (rest = []) := by
  have hsplit : d.reads = (done ++ [c]) ++ rest := by rw [hd, List.append_assoc]; rfl
  have hne : ∀ b ∈ d.reads, b ≠ [] := d.nonempty
  rw [hsplit] at hne
  obtain ⟨ha, hcut⟩ := delivery_take d (done ++ [c]) rest hsplit
  have hmatch := request_cut (done ++ [c]) (fun b hb => hne b (List.mem_append_left rest hb)) ha
    hcut
  refine ⟨hmatch, ?_, ?_⟩
  · by_cases hdone : done = []
    · subst hdone
      rw [List.nil_append, List.flatten_singleton] at ha
      exact ha.2
    · obtain ⟨ha', hcut'⟩ := delivery_take d done (c::rest) hd
      have hne' : ∀ b ∈ done, b ≠ [] := by
        intro b hb
        exact hne b (List.mem_append_left rest (List.mem_append_left [c] hb))
      have hc : c ≠ [] := hne c (List.mem_append_left rest (List.mem_append_right done (by simp)))
      have hflat := flatten_ne_nil hne' hdone
      have hsafe := d.between done.length (List.length_pos_iff.mpr hdone)
        (by rw [hd, List.length_append, List.length_cons]; omega)
      rw [hd, List.take_left] at hsafe
      rw [request_parsed _ _ c (request_cut done hne' ha' hcut')]
      rw [List.flatten_append, List.flatten_singleton] at ha
      exact pair_parsed done.flatten c hflat hc ha hsafe
  · have hone := matches_execute .new _ _ matches_new ha.errno.2
    rw [matches_finished hmatch, ← matches_finished hone]
    by_cases hrest : rest = []
    · subst hrest
      rw [List.append_nil] at hsplit
      rw [← hsplit, d.complete.finished]
      rfl
    · have hrest' := flatten_ne_nil (fun b hb => hne b (List.mem_append_right _ hb)) hrest
      have hpos := List.length_pos_iff.mpr hrest'
      have hall : d.reads.flatten = (done ++ [c]).flatten ++ rest.flatten := by
        rw [hsplit, List.flatten_append]
      have hpre := d.complete.unfinished (done ++ [c]).flatten.length
        (by rw [hall, List.length_append]; omega)
      rw [hall, List.take_left] at hpre
      rw [hpre]
      exact (decide_eq_false hrest).symm

/-- Nothing is left over of a read that was parsed to its end. -/
theorem leftover_length (r : HttpRequestParser) (data : Bytes) :
    leftover r data data.length = [] := by
  unfold leftover
  split_ifs
  · rw [Nat.sub_self, List.take_zero]
  · exact List.drop_length

theorem recvLoop_read (d : Delivery cfg) (done : List Bytes) (c : Bytes) (rest : List Bytes)
    (hd : d.reads = done ++ c::rest) (buffSize : ℕ) (hb : toInt buffSize ≠ 0) (fuel : ℕ)
    (s s' : Stream) (len : ℤ) (hread : s.read buffSize = (len, c, s')) (hlen : 0 < len) :
    recvLoop cfg buffSize (fuel+1) (feedRequest cfg .new done) [] s =
      if rest = [] then (some (feedRequest cfg .new (done ++ [c])).sink.data.init, s')
      else recvLoop cfg buffSize fuel (feedRequest cfg .new (done ++ [c])) [] s' := by
  obtain ⟨hmatch, hparsed, hfinished⟩ := delivery_step d done c rest hd
  have hnext : (feedRequest cfg .new done).execute cfg c =
      (feedRequest cfg .new (done ++ [c]), c.length) := by
    refine Prod.ext ?_ hparsed
    simp only [feedRequest, List.foldl_append, List.foldl_cons, List.foldl_nil]
  have hzero : ¬toInt 0 = toInt buffSize := fun he => hb he.symm
  simp only [recvLoop, List.length_nil, Nat.sub_zero, hread, not_le.mpr hlen, if_false,
    List.nil_append, hnext, matches_hasError hmatch, Bool.false_eq_true, leftover_length, hzero,
    hfinished, decide_eq_true_eq]

theorem recvLoop_ok (d : Delivery cfg) (buffSize : ℕ) (hb : toInt buffSize ≠ 0) (c : Bytes)
    (rest : List Bytes) (done : List Bytes) (hd : d.reads = done ++ c::rest) (fuel : ℕ)
    (s s' : Stream) (hreads : Reads buffSize s (c::rest) s') (hfuel : rest.length < fuel) :
    ∃ q, recvLoop cfg buffSize fuel (feedRequest cfg .new done) [] s = (some q, s') ∧
      content q = content d.request := by
  induction rest generalizing c done fuel s with
  | nil =>
    cases fuel with
    | zero => exact absurd hfuel (Nat.not_lt_zero _)
    | succ fuel =>
      cases hreads with
      | read _ s₁ _ len _ _ hread hlen hrest =>
        cases hrest with
        | done =>
          rw [recvLoop_read d done c [] hd buffSize hb fuel s s' len hread hlen, if_pos rfl]
          refine ⟨_, rfl, content_init _ _ ?_⟩
          obtain ⟨hmatch, -, -⟩ := delivery_step d done c [] hd
          rw [← hd] at hmatch ⊢
          exact matches_content hmatch
            (matches_execute .new _ _ matches_new d.complete.accepts.errno.2)
  | cons c' rest ih =>
    cases fuel with
    | zero => exact absurd hfuel (Nat.not_lt_zero _)
    | succ fuel =>
      cases hreads with
      | read _ s₁ _ len _ _ hread hlen hrest =>
        rw [recvLoop_read d done c (c'::rest) hd buffSize hb fuel s s₁ len hread hlen,
          if_neg (List.cons_ne_nil c' rest)]
        exact ih c' (done ++ [c]) (by rw [hd, List.append_assoc]; rfl) fuel s₁ hrest
          (Nat.lt_of_succ_lt_succ hfuel)

theorem length_le_flatten (cs : List Bytes) (hne : ∀ c ∈ cs, c ≠ []) :
    cs.length ≤ cs.flatten.length := by
  induction cs with
  | nil => exact le_refl _
  | cons c cs ih =>
    have hc := List.length_pos_iff.mpr (hne c List.mem_cons_self)
    have hrest := ih fun b hb => hne b (List.mem_cons_of_mem c hb)
    rw [List.length_cons, List.flatten_cons, List.length_append]
    omega

/-- A call of `recvRequest` takes the reads of one request and returns it. -/
theorem recvRequest_ok (d : Delivery cfg) (buffSize : ℕ) (hb : toInt buffSize ≠ 0) (s s' : Stream)
    (hreads : Reads buffSize s d.reads s') :
    ∃ q, recvRequest cfg buffSize s = (some q, s') ∧ content q = content d.request := by
  cases hd : d.reads with
  | nil =>
    have hf := d.complete.finished
    rw [hd] at hf
    cases hf
  | cons c rest =>
    have hlength := length_le_flatten d.reads d.nonempty
    have hpending := congrArg List.length (reads_pending buffSize s s' d.reads hreads)
    rw [List.length_append] at hpending
    rw [hd, List.length_cons] at hlength
    rw [hd] at hreads hpending
    exact recvLoop_ok d buffSize hb c rest [] hd _ s s' hreads (by omega)

theorem read_zero (s s' : Stream) (len : ℤ) (c : Bytes) (h : s.read 0 = (len, c, s')) :
    len ≤ 0 := by
  unfold Stream.read at h
  split_ifs at h
  · cases h
    omega
  · split at h
    · cases h
      omega
    · next p rest hin =>
      rw [dif_pos (List.length_pos_iff.mpr p.nonempty)] at h
      cases h
      omega

theorem buffSize_pos (d : Delivery cfg) (buffSize : ℕ) (s s' : Stream)
    (hreads : Reads buffSize s d.reads s') : 0 < buffSize := by
  cases hd : d.reads with
  | nil =>
    have hf := d.complete.finished
    rw [hd] at hf
    cases hf
  | cons c rest =>
    rw [hd] at hreads
    cases hreads with
    | read _ s₁ _ len _ _ hread hlen _ =>
      refine Nat.pos_of_ne_zero ?_
      rintro rfl
      have hle := read_zero s s₁ len c hread
      omega

theorem recvRequests_ok (buffSize : ℕ) (hb : buffSize < 2^31) (ds : List (Delivery cfg))
    (s s' : Stream) (hreads : Reads buffSize s (ds.flatMap Delivery.reads) s') :
    (recvRequests cfg buffSize ds.length s).1.map (Option.map content) =
        ds.map (fun d => some (content d.request)) ∧
      (recvRequests cfg buffSize ds.length s).2 = s' := by
  induction ds generalizing s with
  | nil =>
    cases hreads
    exact ⟨rfl, rfl⟩
  | cons d ds ih =>
    rw [List.flatMap_cons] at hreads
    obtain ⟨s₁, hfirst, hrest⟩ := reads_append buffSize d.reads _ s s' hreads
    have hpos := buffSize_pos d buffSize s s₁ hfirst
    have hsize : toInt buffSize ≠ 0 := by
      rw [toInt_small buffSize hb]
      omega
    obtain ⟨q, hq, hcontent⟩ := recvRequest_ok d buffSize hsize s s₁ hfirst
    obtain ⟨hgot, hstream⟩ := ih s₁ hrest
    simp only [List.length_cons, recvRequests, hq, List.map_cons, Option.map_some, hcontent]
    exact ⟨by rw [hgot], hstream⟩

/-- Requests that each arrive in reads of their own are received one by one, and the
bytes behind them stay in the stream. -/
theorem requests_received (cfg : Config) (buffSize : ℕ) (hb : buffSize < 2^31)
    (ds : List (Delivery cfg)) (s s' : Stream)
    (hreads : Reads buffSize s (ds.flatMap Delivery.reads) s') :
    (recvRequests cfg buffSize ds.length s).1.map (Option.map content) =
        ds.map (fun d => some (content d.request)) ∧
      (recvRequests cfg buffSize ds.length s).2 = s' ∧
      s.pending = (ds.flatMap Delivery.reads).flatten ++ s'.pending := by
  obtain ⟨hgot, hstream⟩ := recvRequests_ok buffSize hb ds s s' hreads
  exact ⟨hgot, hstream, reads_pending buffSize s s' _ hreads⟩

def postDelivery : Delivery Config.standard where
  reads := [ascii "POST /a HTTP/1.1\r\nContent-Length: 4\r\n\r\n", ascii "body"]
  nonempty := by decide +kernel
  complete := ⟨by decide +kernel, by decide +kernel, by decide +kernel⟩
  between := by
    intro i hi hlt
    obtain rfl : i = 1 := by
      simp only [List.length_cons, List.length_nil] at hlt
      omega
    decide +kernel

def upgradeDelivery : Delivery Config.standard where
  reads := [ascii "GET /ws HTTP/1.1\r\nConnection: Upgrade\r\nUpgrade: websocket\r\n\r\n"]
  nonempty := by decide +kernel
  complete := ⟨by decide +kernel, by decide +kernel, by decide +kernel⟩
  between := by
    intro i hi hlt
    simp only [List.length_cons, List.length_nil] at hlt
    omega

def upgradeStream : Stream where
  inbox :=
    [⟨ascii "POST /a HTTP/1.1\r\nContent-Length: 4\r\n\r\n", by decide +kernel⟩,
      ⟨ascii "body", by decide +kernel⟩,
      ⟨ascii "GET /ws HTTP/1.1\r\nConnection: Upgrade\r\nUpgrade: websocket\r\n\r\n",
        by decide +kernel⟩,
      ⟨[0x89, 0x80, 1, 2, 3, 4], by decide⟩]
  grants := []
  outbox := []
  closed := false

theorem requests_received_upgrade :
    (recvRequests Config.standard 4096 2 upgradeStream).1.map (Option.map content) =
        [some (content postDelivery.request), some (content upgradeDelivery.request)] ∧
      (recvRequests Config.standard 4096 2 upgradeStream).2.pending = [0x89, 0x80, 1, 2, 3, 4] := by
  have hreads : Reads 4096 upgradeStream ([postDelivery, upgradeDelivery].flatMap Delivery.reads)
      { upgradeStream with inbox := [⟨[0x89, 0x80, 1, 2, 3, 4], by decide⟩] } := by
    refine .read _ _ _ _ _ _ rfl (by decide +kernel) ?_
    refine .read _ _ _ _ _ _ rfl (by decide +kernel) ?_
    exact .read _ _ _ _ _ _ rfl (by decide +kernel) (.done _)
  obtain ⟨hgot, hstream, -⟩ := requests_received Config.standard 4096 (by decide)
    [postDelivery, upgradeDelivery] upgradeStream _ hreads
  exact ⟨hgot, congrArg Stream.pending hstream⟩

/-- Two requests, and an upgrade request with a frame, that arrive in one read each:
the first request is replaced by the second one, which is not received any more, and
the frame is gone. -/
theorem pipelined_request_lost :
    CompleteRequest Config.standard (ascii "GET /a HTTP/1.1\r\n\r\n") ∧
    CompleteRequest Config.standard (ascii "GET /b HTTP/1.1\r\n\r\n") ∧
    (recvRequests Config.standard 4096 2
      ⟨[⟨ascii "GET /a HTTP/1.1\r\n\r\nGET /b HTTP/1.1\r\n\r\n", by decide +kernel⟩], [], [],
        false⟩).1.map (Option.map HttpRequest.path) = [some (ascii "/b"), none] ∧
    (recvRequest Config.standard 4096
      ⟨[⟨ascii "GET /ws HTTP/1.1\r\nConnection: Upgrade\r\nUpgrade: websocket\r\n\r\n" ++
        [0x89, 0x80, 1, 2, 3, 4], by decide +kernel⟩], [], [], false⟩).2.pending = [] := by
  refine ⟨⟨?_, ?_, ?_⟩, ⟨?_, ?_, ?_⟩, ?_, ?_⟩ <;> decide +kernel

end

end Lamb.HttpSession
