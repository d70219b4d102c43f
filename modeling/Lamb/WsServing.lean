import Lamb.HttpServing
import Lamb.WsFragments
import Lamb.WsHandshake
import Lamb.WsRounds

/-!
# WSServer

`handleClient` shakes hands, looks up the servlet of the path and hands it the messages of
the connection. The servlet hears of the connection first, of every message in turn, and of
the end once.
-/

set_option autoImplicit false

namespace Lamb.WsServing
open Lamb.ByteString Lamb.ByteStream Lamb.Http Lamb.HttpMachine Lamb.HttpParser Lamb.HttpSession
open Lamb.HttpServing Lamb.Servlets Lamb.WsSession Lamb.WsRoundTrip Lamb.WsRounds Lamb.WsFragments
open Lamb.WsHandshake (handleShake versionCast)

variable {σ S Cb C : Type}

/-- A message that a servlet sends, with the length that `sendMessage` leaves uninitialised. -/
structure Reply where
  message : WSFrameMessage
  uninit : UInt16

/-- `WSServlet`: the result of a callback, the state of the application after it and the
messages that it sends. -/
structure WSServlet (σ : Type) where
  onConnect : HttpRequest → σ → ℤ × σ × List Reply
  handle : HttpRequest → WSFrameMessage → σ → ℤ × σ × List Reply
  onClose : HttpRequest → σ → ℤ × σ × List Reply

/-- `FunctionWSServlet`, the callbacks of which may be empty. -/
def functionWSServlet (cb : Option (HttpRequest → WSFrameMessage → σ → ℤ × σ × List Reply))
    (connectCb closeCb : Option (HttpRequest → σ → ℤ × σ × List Reply)) : WSServlet σ where
  onConnect := connectCb.getD fun _ a => (0, a, [])
  handle := cb.getD fun _ _ a => (0, a, [])
  onClose := closeCb.getD fun _ a => (0, a, [])

/-- `WSSession::sendMessage` for every message in turn. -/
def sendReplies (rs : List Reply) (s : Stream) : Stream :=
  rs.foldl (fun s r => (wsSendMessage s r.message false true 0 r.uninit).2.2) s

/-- The server and what is plugged in: which servlets are `WSServlet`s, the creators and
`fnmatch`, the conversion of the version and the encoded digest of the handshake, and the texts of
the statuses. -/
structure WSServer (σ S Cb C : Type) where
  dispatch : ServletDispatch S Cb C
  asWSServlet : S → Option (WSServlet σ)
  make : C → Servlet S Cb
  fnmatch : Bytes → Bytes → Bool
  lexicalCast : Bytes → Option ℤ
  encoded : Bytes → Bytes
  statusText : ℕ → Bytes

/-- `WSServletDispatch::getWSServlet`. -/
def getWSServlet (srv : WSServer σ S Cb C) (uri : Bytes) : Option (WSServlet σ) :=
  match getMatchedServlet srv.dispatch uri srv.make srv.fnmatch with
  | .user slt => srv.asWSServlet slt
  | _ => none

/-- `WSSession::handleShake`. -/
def shake (cfg : Config) (buffSize : ℕ) (srv : WSServer σ S Cb C) (s : Stream) :
    Option HttpRequest × Stream :=
  match recvRequest cfg buffSize s with
  | (received, s') =>
    match handleShake srv.lexicalCast srv.encoded received with
    | none => (none, s')
    | some (req, rsp) => (some req, (s'.writeFixSize (HttpResponseDump.dump srv.statusText rsp)).2)

/-- The inner loop of `handleClient`. Every turn that goes on has read a frame. -/
def messageLoop (maxSize : UInt32) (slt : WSServlet σ) (header : HttpRequest) :
    ℕ → σ → Stream → σ × Stream
  | 0, a, s => (a, s)
  | fuel+1, a, s =>
    match wsRecvMessage s false maxSize with
    | (none, s') => (a, s')
    | (some msg, s') =>
      match slt.handle header msg a with
      | (rt, a', out) =>
        if rt ≠ 0 then (a', sendReplies out s')
        else messageLoop maxSize slt header fuel a' (sendReplies out s')

/-- `WSServer::handleClient`. -/
def handleClient (cfg : Config) (buffSize : ℕ) (maxSize : UInt32) (srv : WSServer σ S Cb C)
    (a : σ) (s : Stream) : σ × Stream :=
  match shake cfg buffSize srv s with
  | (none, s') => (a, s'.close)
  | (some header, s') =>
    match getWSServlet srv header.path with
    | none => (a, s'.close)
    | some slt =>
      match slt.onConnect header a with
      | (rt, a', out) =>
        let s' := sendReplies out s'
        if rt ≠ 0 then (a', s'.close)
        else
          let x := messageLoop maxSize slt header (s'.pending.length+1) a' s'
          match slt.onClose header x.1 with
          | (_, a'', out') => (a'', (sendReplies out' x.2).close)

/-! ## An open connection -/

theorem write_closed (s : Stream) (buf : Bytes) : (s.write buf).2.closed = s.closed := by
  unfold Stream.write
  split_ifs
  · rfl
  · cases s.grants <;> rfl

theorem writeLoop_closed (length fuel : ℕ) (left : ℤ) (rest : Bytes) (s : Stream) :
    (writeLoop length fuel left rest s).2.closed = s.closed := by
  induction fuel generalizing left rest s with
  | zero => rfl
  | succ fuel ih =>
    simp only [writeLoop]
    split_ifs
    · rfl
    · exact write_closed s rest
    · rw [ih, write_closed]

theorem readLoop_closed (length fuel : ℕ) (left : ℤ) (buffer : Bytes) (s : Stream) :
    (readLoop length fuel left buffer s).2.2.closed = s.closed := by
  induction fuel generalizing left buffer s with
  | zero => rfl
  | succ fuel ih =>
    simp only [readLoop]
    split_ifs
    · rfl
    · exact read_closed s _
    · rw [ih, read_closed]

theorem recvFix_closed {s s' : Stream} {n : ℕ} {bs : Bytes} (h : recvFix s n = .ok (bs, s')) :
    s'.closed = s.closed := by
  have hread : (s.readFixSize n).2.2.closed = s.closed := readLoop_closed n n _ [] s
  rw [recvFix] at h
  split_ifs at h
  obtain ⟨-, rfl⟩ := Prod.mk.inj (Except.ok.inj h)
  exact hread

theorem recvLength_closed {payload : BitVec 7} {s s' : Stream} {length : ℕ}
    (h : recvLength payload s = .ok (length, s')) : s'.closed = s.closed := by
  have hfix : ∀ n, (recvFix s n >>= fun r => pure (byteswap n (leValue r.1), r.2)) =
      Except.ok (length, s') → s'.closed = s.closed := by
    intro n h
    cases hr : recvFix s n with
    | error e =>
      rw [hr] at h
      cases h
    | ok r =>
      rw [hr] at h
      obtain ⟨-, rfl⟩ := Prod.mk.inj (Except.ok.inj h)
      exact recvFix_closed hr
  unfold recvLength at h
  split_ifs at h
  · exact hfix 2 h
  · exact hfix 8 h
  · obtain ⟨-, rfl⟩ := Prod.mk.inj (Except.ok.inj h)
    rfl

theorem recvMask_closed {mask : Bool} {s s' : Stream} {bs : Bytes}
    (h : recvMask mask s = .ok (bs, s')) : s'.closed = s.closed := by
  unfold recvMask at h
  split_ifs at h
  · exact recvFix_closed h
  · obtain ⟨-, rfl⟩ := Prod.mk.inj (Except.ok.inj h)
    rfl

theorem wsPong_closed (s : Stream) (h : ¬ (wsPong s).1 ≤ 0) : (wsPong s).2.closed = s.closed := by
  unfold wsPong sendControl at *
  dsimp only at *
  split_ifs at * with hwrite
  · exact absurd hwrite h
  · exact writeLoop_closed _ _ _ _ s

section Receiving

variable {client : Bool} {maxSize : UInt32}

theorem recvData_closed {head : WSFrameHead} {a a' : Assembly} {s s' : Stream}
    (h : recvData client maxSize head a s = .ok (a', s')) : s'.closed = s.closed := by
  obtain ⟨length, s₁, mask, s₂, got, h₁, -, h₂, h₃, -, -⟩ :=
    recvData_steps client maxSize head a a' s s' h
  rw [recvFix_closed h₃, recvMask_closed h₂, recvLength_closed h₁]

def LeftOpen (o : WsRounds.Outcome) (closed : Bool) : Prop :=
  match o with
  | .done none s => s.closed = true
  | .done (some _) s => s.closed = closed
  | .again _ s => s.closed = closed

theorem recvRound_closed (a : Assembly) (s : Stream) :
    LeftOpen (recvRound client maxSize a s) s.closed := by
  unfold recvRound
  cases hhead : recvFix s 2 with
  | error e => rfl
  | ok r =>
    obtain ⟨bs, t⟩ := r
    have hopen := recvFix_closed hhead
    dsimp only
    split_ifs with hping hpong hpong' hdata hclose
    · rfl
    · exact (wsPong_closed t hpong).trans hopen
    · exact hopen
    · unfold dataRound
      cases hd : recvData client maxSize (WSFrameHead.ofBytes bs) a t with
      | error e => rfl
      | ok r =>
        dsimp only
        split_ifs
        · exact (recvData_closed hd).trans hopen
        · exact (recvData_closed hd).trans hopen
    · rfl
    · exact hopen

theorem recvLoop_closed (fuel : ℕ) (a : Assembly) (s : Stream) :
    (recvLoop client maxSize fuel a s).2.closed =
      ((recvLoop client maxSize fuel a s).1.isNone || s.closed) := by
  induction fuel generalizing a s with
  | zero => rfl
  | succ fuel ih =>
    have hround : LeftOpen (recvRound client maxSize a s) s.closed := recvRound_closed a s
    rw [recvLoop_succ]
    cases h : recvRound client maxSize a s with
    | done message s' =>
      rw [h] at hround
      cases message with
      | none => exact hround
      | some m => exact hround
    | again a' s' =>
      rw [h] at hround
      dsimp only
      rw [ih, show s'.closed = s.closed from hround]

end Receiving

/-! ## What a servlet sends -/

def Unread (s : Stream) (r : Except Stream Stream) : Prop :=
  ∀ t, r = .ok t ∨ r = .error t → t.inbox = s.inbox

theorem unread_bind {s : Stream} {r : Except Stream Stream} {f : Stream → Except Stream Stream}
    (hr : Unread s r) (hf : ∀ t, Unread t (f t)) : Unread s (r >>= f) := by
  intro t h
  cases r with
  | error e =>
    rcases h with h | h
    · cases h
    · exact hr t (.inr h)
  | ok s' => exact (hf s' t h).trans (hr s' (.inl rfl))

theorem sendFix_unread (s : Stream) (buf : Bytes) : Unread s (sendFix s buf) := by
  intro t h
  have hwrite : (s.writeFixSize buf).2.inbox = s.inbox := writeLoop_inbox _ _ _ _ s
  rw [sendFix] at h
  split_ifs at h
  · obtain rfl : (s.writeFixSize buf).2 = t := by simpa using h
    exact hwrite
  · obtain rfl : (s.writeFixSize buf).2 = t := by simpa using h
    exact hwrite

theorem ok_unread (s : Stream) : Unread s (.ok s) := by
  intro t h
  obtain rfl : s = t := by simpa using h
  rfl

theorem sendLength_unread (payload : BitVec 7) (size : ℕ) (uninit : UInt16) (s : Stream) :
    Unread s (sendLength payload size uninit s) := by
  unfold sendLength
  split_ifs
  · exact sendFix_unread s _
  · exact sendFix_unread s _
  · exact ok_unread s

theorem sendMask_unread (client : Bool) (mask : Bytes) (s : Stream) :
    Unread s (sendMask client mask s) := by
  unfold sendMask
  split_ifs
  · exact sendFix_unread s mask
  · exact ok_unread s

theorem wsSendMessage_inbox (s : Stream) (msg : WSFrameMessage) (client fin : Bool)
    (rand : UInt32) (uninit : UInt16) :
    (wsSendMessage s msg client fin rand uninit).2.2.inbox = s.inbox := by
  have hbegin : Unread s (sendPrefix (sendHead msg.opcode client fin msg.data.length)
      msg.data.length uninit s) :=
    unread_bind (sendFix_unread s _) fun t => sendLength_unread _ _ _ t
  have hpayload : ∀ mask data t, Unread t (sendPayload client mask data t) := fun mask data t =>
    unread_bind (sendMask_unread client mask t) fun t' => sendFix_unread t' data
  unfold wsSendMessage
  cases h₁ : sendPrefix (sendHead msg.opcode client fin msg.data.length) msg.data.length uninit s
    with
  | error s₁ =>
    simp only [h₁]
    exact hbegin s₁ (.inr h₁)
  | ok s₁ =>
    simp only [h₁]
    generalize hdata : (if client then _ else _ : Bytes) = data
    cases h₂ : sendPayload client (leBytes 4 rand.toNat) data s₁ with
    | error s₂ => exact (hpayload _ _ _ s₂ (.inr h₂)).trans (hbegin s₁ (.inl h₁))
    | ok s₂ => exact (hpayload _ _ _ s₂ (.inl h₂)).trans (hbegin s₁ (.inl h₁))

theorem wsSendMessage_closed (s : Stream) (msg : WSFrameMessage) (client fin : Bool)
    (rand : UInt32) (uninit : UInt16) (hc : s.closed = true) :
    (wsSendMessage s msg client fin rand uninit).2.2 = s := by
  have hsend : sendFix s (sendHead msg.opcode client fin msg.data.length).toBytes = .error s := by
    have hwrite : ∀ buf, s.write buf = (-1, s) := fun buf => if_pos hc
    simp only [sendFix, Stream.writeFixSize, WSFrameHead.toBytes, List.length_cons,
      List.length_nil, writeLoop, hwrite]
    rfl
  have hbegin : sendPrefix (sendHead msg.opcode client fin msg.data.length) msg.data.length
      uninit s = .error s := by
    rw [sendPrefix, hsend]
    rfl
  unfold wsSendMessage
  simp only [hbegin]
  rw [Stream.close, ← hc]

/-- A reply that `sendMessage` sends without an error. -/
structure Reply.Whole (r : Reply) : Prop where
  nonempty : r.message.data ≠ []
  counted : r.message.data.length < 2^31

def frames (rs : List Reply) : Bytes := rs.flatMap fun r =>
  (sendHead r.message.opcode false true r.message.data.length).toBytes ++
    frameTail (sendHead r.message.opcode false true r.message.data.length) r.message.data 0 r.uninit

theorem frames_cons (r : Reply) (rs : List Reply) :
    frames (r::rs) = frames [r] ++ frames rs := by
  rw [frames, List.flatMap_cons, frames, List.flatMap_singleton, frames]

theorem sendReplies_open (rs : List Reply) (hrs : ∀ r ∈ rs, r.Whole) (s : Stream)
    (ho : s.closed = false) : (sendReplies rs s).closed = false ∧
      (sendReplies rs s).outbox = s.outbox ++ frames rs ∧
      (sendReplies rs s).inbox = s.inbox := by
  induction rs generalizing s with
  | nil => exact ⟨ho, (List.append_nil _).symm, rfl⟩
  | cons r rs ih =>
    obtain ⟨hr, hrs⟩ := List.forall_mem_cons.mp hrs
    have hout := send_outbox s r.message false true 0 r.uninit ho
      (hr.counted.trans (by decide))
    have hopen := send_open s r.message false true 0 r.uninit ho hr.nonempty hr.counted
    have hin := wsSendMessage_inbox s r.message false true 0 r.uninit
    obtain ⟨hopen', hout', hin'⟩ := ih hrs _ hopen
    rw [sendReplies, List.foldl_cons, ← sendReplies]
    refine ⟨hopen', ?_, hin'.trans hin⟩
    have hframe : (wsSendMessage s r.message false true 0 r.uninit).2.2.outbox =
        s.outbox ++ frames [r] := by
      rw [hout, frames, List.flatMap_singleton, List.append_assoc]
    rw [frames_cons, ← List.append_assoc, ← hframe, hout']

theorem sendReplies_closed (rs : List Reply) (s : Stream) (hc : s.closed = true) :
    sendReplies rs s = s := by
  induction rs with
  | nil => rfl
  | cons r rs ih =>
    rw [sendReplies, List.foldl_cons, wsSendMessage_closed s _ _ _ _ _ hc]
    exact ih

/-! ## The conversation -/

def received (m : Message) : WSFrameMessage := ⟨m.first.op.code.toNat, payloads m.fragments⟩

/-- How a conversation ends: the application, what the server has written, the messages that
nobody has read, and whether the servlet has ended it. -/
structure Ending (σ : Type) where
  app : σ
  written : Bytes
  unread : List Message
  ended : Bool

/-- The servlet gets the messages one after another, up to the one on which it gives up. The
server answers the control frames within a message before the servlet gets it. -/
def converse (slt : WSServlet σ) (header : HttpRequest) : σ → List Message → Ending σ
  | a, [] => ⟨a, [], [], false⟩
  | a, m::ms =>
    match slt.handle header (received m) a with
    | (rt, a', out) =>
      if rt ≠ 0 then ⟨a', replies m.fragments ++ frames out, ms, true⟩
      else
        let e := converse slt header a' ms
        { e with written := replies m.fragments ++ frames out ++ e.written }

/-- The part of the servlet in a connection. What `onClose` sends reaches the client only where
the servlet itself has ended the conversation. -/
def attend (slt : WSServlet σ) (header : HttpRequest) (a : σ) (ms : List Message) : Ending σ :=
  match slt.onConnect header a with
  | (rt, a', out) =>
    if rt ≠ 0 then ⟨a', frames out, ms, true⟩
    else
      let e := converse slt header a' ms
      match slt.onClose header e.app with
      | (_, a'', out') =>
        ⟨a'', frames out ++ e.written ++ (if e.ended then frames out' else []), e.unread, e.ended⟩

/-- All replies of the servlet to these messages are sent without an error. -/
structure Polite (slt : WSServlet σ) (header : HttpRequest) (ms : List Message) : Prop where
  onConnect : ∀ a, ∀ r ∈ (slt.onConnect header a).2.2, r.Whole
  handle : ∀ m ∈ ms, ∀ a, ∀ r ∈ (slt.handle header (received m) a).2.2, r.Whole
  onClose : ∀ a, ∀ r ∈ (slt.onClose header a).2.2, r.Whole

theorem Polite.tail {slt : WSServlet σ} {header : HttpRequest} {m : Message} {ms : List Message}
    (h : Polite slt header (m::ms)) : Polite slt header ms :=
  ⟨h.onConnect, fun m' hm' => h.handle m' (.tail m hm'), h.onClose⟩

def wires (ms : List Message) : Bytes := ms.flatMap fun m => wire true m.fragments

/-- The receiver takes the message: its positions are `int` values and it is short enough. -/
structure Taken (maxSize : UInt32) (m : Message) : Prop where
  indexable : Indexable true 0 m.fragments
  short : (payloads m.fragments).length < maxSize.toNat

section Conversation

variable {maxSize : UInt32} {slt : WSServlet σ}

theorem recv_drained (s : Stream) (ho : s.closed = false) (hp : s.pending = []) :
    wsRecvMessage s false maxSize = (none, s.close) := by
  have hread : s.readFixSize 2 = (0, [], s) := by
    rw [Stream.readFixSize, readLoop, if_neg (by decide), read_drained s _ ho hp]
    rfl
  rw [wsRecvMessage, WsSession.recvLoop, recvFix, hread]
  rfl

theorem recv_taken {m : Message} (hm : Taken maxSize m) (s : Stream) (rest : Bytes)
    (ho : s.closed = false) (hp : s.pending = wire true m.fragments ++ rest) :
    ∃ s', wsRecvMessage s false maxSize = (some (received m), s') ∧ s'.closed = false ∧
      s'.pending = rest ∧ s'.outbox = s.outbox ++ replies m.fragments := by
  obtain ⟨s', hrun, hrest, hout⟩ := recvLoop_message true maxSize m.fragments
    (List.cons_ne_nil _ _) (s.pending.length+1) ⟨0, [], 0⟩ s rest ho rfl hm.indexable
    (by simpa using hm.short) hp (by omega)
  rw [message_opcode, List.nil_append] at hrun
  have hopen := @recvLoop_closed false maxSize (s.pending.length+1) ⟨0, [], 0⟩ s
  rw [Bool.not_true] at hrun
  rw [hrun, ho] at hopen
  exact ⟨s', hrun, hopen, hrest, hout⟩

theorem wire_length_pos (m : Message) : 0 < (wire true m.fragments).length :=
  List.length_pos_iff.mpr (wire_ne_nil true m)

/-- The loop of `handleClient` is the conversation. -/
theorem messageLoop_converse (header : HttpRequest) (ms : List Message)
    (hslt : Polite slt header ms) (hms : ∀ m ∈ ms, Taken maxSize m) (fuel : ℕ) (a : σ)
    (s : Stream) (ho : s.closed = false)
    (hp : s.pending = wires ms) (hfuel : s.pending.length < fuel) :
    ∃ s', messageLoop maxSize slt header fuel a s = ((converse slt header a ms).app, s') ∧
      s'.outbox = s.outbox ++ (converse slt header a ms).written ∧
      s'.pending = wires (converse slt header a ms).unread ∧
      s'.closed = !(converse slt header a ms).ended := by
  induction ms generalizing fuel a s with
  | nil =>
    obtain ⟨fuel, rfl⟩ := Nat.exists_eq_succ_of_ne_zero (Nat.ne_zero_of_lt hfuel)
    refine ⟨s.close, ?_, (List.append_nil _).symm, hp, rfl⟩
    rw [messageLoop, recv_drained s ho hp]
    rfl
  | cons m ms ih =>
    obtain ⟨hm, hms⟩ := List.forall_mem_cons.mp hms
    obtain ⟨fuel, rfl⟩ := Nat.exists_eq_succ_of_ne_zero (Nat.ne_zero_of_lt hfuel)
    have hwires : wires (m::ms) = wire true m.fragments ++ wires ms := List.flatMap_cons
    rw [hwires] at hp
    obtain ⟨s₁, hrecv, hopen₁, hp₁, hout₁⟩ := recv_taken hm s (wires ms) ho hp
    have hwhole := hslt.handle m (.head ms) a
    rcases hhandle : slt.handle header (received m) a with ⟨rt, a', out⟩
    rw [hhandle] at hwhole
    simp only [messageLoop, hrecv, converse, hhandle]
    obtain ⟨hopen₂, hout₂, hin₂⟩ := sendReplies_open out hwhole s₁ hopen₁
    have hp₂ : (sendReplies out s₁).pending = wires ms := by rw [Stream.pending, hin₂]; exact hp₁
    by_cases hrt : rt ≠ 0
    · rw [if_pos hrt, if_pos hrt]
      refine ⟨sendReplies out s₁, rfl, ?_, hp₂, hopen₂⟩
      rw [hout₂, hout₁, List.append_assoc]
    · have hlength := congrArg List.length hp
      have hpos := wire_length_pos m
      rw [List.length_append] at hlength
      obtain ⟨s', hloop, hout', hp', hc'⟩ :=
        ih hslt.tail hms fuel a' (sendReplies out s₁) hopen₂ hp₂ (by rw [hp₂]; omega)
      rw [if_neg hrt, if_neg hrt]
      refine ⟨s', hloop, ?_, hp', hc'⟩
      rw [hout', hout₂, hout₁]
      simp only [List.append_assoc]

theorem handleShake_content (lexicalCast : Bytes → Option ℤ) (encoded : Bytes → Bytes)
    (r : HttpRequest) : handleShake lexicalCast encoded (some (content r)) =
      handleShake lexicalCast encoded (some r) := rfl

variable {cfg : Config} {buffSize : ℕ} {srv : WSServer σ S Cb C}

theorem shake_delivered (d : Delivery cfg) (hbuff : buffSize < 2^31) {header : HttpRequest}
    {rsp : ServerResponse}
    (hshake : handleShake srv.lexicalCast srv.encoded (some d.request) = some (header, rsp))
    (hsmall : (HttpResponseDump.dump srv.statusText rsp).length < 2^63) {s s₁ : Stream}
    (hreads : Reads buffSize s d.reads s₁) (hopen : s.closed = false) :
    ∃ s₂, shake cfg buffSize srv s = (some header, s₂) ∧ s₂.closed = false ∧
      s₂.outbox = s.outbox ++ HttpResponseDump.dump srv.statusText rsp ∧
      s₂.inbox = s₁.inbox := by
  have hbuff' : toInt buffSize ≠ 0 := by
    have hpos := buffSize_pos d buffSize s s₁ hreads
    rw [toInt_small buffSize hbuff]
    omega
  obtain ⟨q, hrecv, hcontent⟩ := recvRequest_ok d buffSize hbuff' s s₁ hreads
  obtain ⟨hclosed, houtbox⟩ := reads_keep hreads
  have hshake' : handleShake srv.lexicalCast srv.encoded (some q) = some (header, rsp) := by
    rw [← handleShake_content, hcontent, handleShake_content, hshake]
  obtain ⟨s₂, hwrite, hout, hopen₂, hinbox⟩ := writeFixSize_ok s₁
    (HttpResponseDump.dump srv.statusText rsp) (hclosed.trans hopen) hsmall
  refine ⟨s₂, ?_, hopen₂, ?_, hinbox⟩
  · simp only [shake, hrecv, hshake', hwrite]
  · rw [hout, houtbox]

theorem delivery_reads_ne (d : Delivery cfg) : d.reads ≠ [] := by
  intro h
  have hfinished := d.complete.finished
  rw [h] at hfinished
  cases hfinished

/-- A client whose handshake is accepted and whose messages arrive behind it, however they are
cut into fragments and reads, is served by the servlet of the path: the servlet hears of the
connection once, of the messages in their order up to the one on which it gives up, and of the
end once. The server has written the answer to the handshake, the replies of the servlet and the
`PONG`s, and the connection is closed. -/
theorem conversation_served (d : Delivery cfg) (hbuff : buffSize < 2^31) {header : HttpRequest}
    {rsp : ServerResponse}
    (hshake : handleShake srv.lexicalCast srv.encoded (some d.request) = some (header, rsp))
    (hsmall : (HttpResponseDump.dump srv.statusText rsp).length < 2^63)
    (hfound : getWSServlet srv header.path = some slt) {ms : List Message}
    (hslt : Polite slt header ms) (hms : ∀ m ∈ ms, Taken maxSize m) (a : σ) {s s₁ : Stream}
    (hreads : Reads buffSize s d.reads s₁) (hp : s₁.pending = wires ms) :
    ∃ s', handleClient cfg buffSize maxSize srv a s = ((attend slt header a ms).app, s') ∧
      s'.outbox = s.outbox ++ HttpResponseDump.dump srv.statusText rsp ++
        (attend slt header a ms).written ∧
      s'.pending = wires (attend slt header a ms).unread ∧ s'.closed = true := by
  have hopen := reads_open hreads (delivery_reads_ne d)
  obtain ⟨s₂, hshaken, hopen₂, hout₂, hin₂⟩ :=
    shake_delivered d hbuff hshake hsmall hreads hopen
  have hconnect := hslt.onConnect a
  rcases hcall : slt.onConnect header a with ⟨rt, a', out⟩
  rw [hcall] at hconnect
  obtain ⟨hopen₃, hout₃, hin₃⟩ := sendReplies_open out hconnect s₂ hopen₂
  have hp₃ : (sendReplies out s₂).pending = wires ms := by
    rw [Stream.pending, hin₃, hin₂]
    exact hp
  simp only [handleClient, hshaken, hfound, attend, hcall]
  by_cases hrt : rt ≠ 0
  · rw [if_pos hrt, if_pos hrt]
    refine ⟨(sendReplies out s₂).close, rfl, ?_, hp₃, rfl⟩
    rw [← hout₂]
    exact hout₃
  · rw [if_neg hrt, if_neg hrt]
    obtain ⟨s₄, hloop, hout₄, hp₄, hclosed₄⟩ := messageLoop_converse header ms hslt hms
      ((sendReplies out s₂).pending.length+1) a' _ hopen₃ hp₃ (Nat.lt_succ_self _)
    have hclose := hslt.onClose (converse slt header a' ms).app
    rcases hend : slt.onClose header (converse slt header a' ms).app with ⟨rt', a'', out'⟩
    rw [hend] at hclose
    simp only [hloop, hend]
    refine ⟨(sendReplies out' s₄).close, rfl, ?_⟩
    cases hended : (converse slt header a' ms).ended with
    | true =>
      rw [hended] at hclosed₄
      obtain ⟨-, hout₅, hin₅⟩ := sendReplies_open out' hclose s₄ hclosed₄
      refine ⟨?_, ?_, rfl⟩
      · rw [Stream.close, hout₅, hout₄, hout₃, hout₂, if_pos rfl]
        simp only [List.append_assoc]
      · rw [Stream.close, Stream.pending, hin₅]
        exact hp₄
    | false =>
      rw [hended] at hclosed₄
      rw [sendReplies_closed out' s₄ hclosed₄]
      refine ⟨?_, hp₄, rfl⟩
      rw [Stream.close, hout₄, hout₃, hout₂, if_neg (by decide), List.append_nil]
      simp only [List.append_assoc]

end Conversation

/-! ## An echo -/

def echo : WSServlet ℕ :=
  functionWSServlet (some fun _ msg n => (0, n+1, [⟨msg, 0⟩])) none
    (some fun _ n => (0, n, [⟨⟨1, [98, 121, 101]⟩, 0⟩]))

def echoServer : WSServer ℕ (WSServlet ℕ) Empty Empty where
  dispatch := addServlet .new (ascii "/chat") (.user echo)
  asWSServlet := some
  make := Empty.elim
  fnmatch := fun _ _ => false
  lexicalCast := versionCast
  encoded := id
  statusText := fun _ => ascii "Switching Protocols"

def handshake : Bytes :=
  ascii "GET /chat HTTP/1.1\r\nConnection: keep-alive, Upgrade\r\nUpgrade: websocket\r\n" ++
    ascii "Sec-WebSocket-Version: 13\r\nSec-WebSocket-Key: a2V5\r\n\r\n"

def handshakeDelivery : Delivery Config.standard where
  reads := [handshake]
  nonempty := by decide +kernel
  complete := ⟨by decide +kernel, by decide +kernel, by decide +kernel⟩
  between := by
    intro i hi hlt
    exact absurd hlt (Nat.not_lt.mpr hi)

def greetingStream : Stream where
  inbox := [⟨[1], by decide⟩,
    ⟨[130, 1, 2, 3, 4, 105, 107, 137, 0, 138, 0, 128, 129, 5, 6, 7, 8, 36], by decide⟩]
  grants := []
  outbox := []
  closed := false

def handshakePiece : Piece := ⟨handshake, by decide +kernel⟩

def chatStream : Stream := { greetingStream with inbox := handshakePiece::greetingStream.inbox }

theorem greeting_echoed : ∃ header rsp s',
    handleShake versionCast id (some handshakeDelivery.request) = some (header, rsp) ∧
    handleClient Config.standard 4096 100 echoServer 0 chatStream = (1, s') ∧
    s'.outbox = HttpResponseDump.dump echoServer.statusText rsp ++
      (replies greeting.fragments ++ frames [⟨received greeting, 0⟩]) ∧
    s'.pending = [] ∧ s'.closed = true := by
  have hsome : (handleShake versionCast id (some handshakeDelivery.request)).isSome = true := by
    decide +kernel
  obtain ⟨⟨header, rsp⟩, hshake⟩ := Option.isSome_iff_exists.mp hsome
  have hpath : (handleShake versionCast id (some handshakeDelivery.request)).map
      (fun x => x.1.path) = some (ascii "/chat") := by decide +kernel
  have hlength : (handleShake versionCast id (some handshakeDelivery.request)).map
      (fun x => decide ((HttpResponseDump.dump echoServer.statusText x.2).length < 2^63)) =
        some true := by decide +kernel
  rw [hshake] at hpath hlength
  have hserver : handleShake echoServer.lexicalCast echoServer.encoded
      (some handshakeDelivery.request) = some (header, rsp) := hshake
  have hfound : getWSServlet echoServer header.path = some echo := by
    rw [show header.path = ascii "/chat" from Option.some.inj hpath]
    rfl
  have hpolite : Polite echo header [greeting] := {
    onConnect := fun _ r hr => absurd hr List.not_mem_nil
    handle := by
      intro m hm n r hr
      obtain rfl := List.mem_singleton.mp hm
      obtain rfl := List.mem_singleton.mp hr
      exact ⟨by decide, by decide⟩
    onClose := by
      intro n r hr
      obtain rfl := List.mem_singleton.mp hr
      exact ⟨by decide, by decide⟩ }
  have htaken : ∀ m ∈ [greeting], Taken 100 m := by
    intro m hm
    obtain rfl := List.mem_singleton.mp hm
    exact ⟨⟨by decide, fun _ => by decide⟩, by decide⟩
  have hreads : Reads 4096 chatStream handshakeDelivery.reads greetingStream := by
    have hfits : handshakePiece.bytes.length ≤ 4096 := by decide +kernel
    have hpos : (0 : ℤ) < handshakePiece.bytes.length := by decide +kernel
    have hread := @read_piece chatStream 4096 handshakePiece greetingStream.inbox rfl rfl hfits
    exact .read _ _ _ _ _ _ hread hpos (.done _)
  obtain ⟨s', hrun, hout, hpending, hclosed⟩ := conversation_served handshakeDelivery (by decide)
    hserver (of_decide_eq_true (Option.some.inj hlength)) hfound hpolite htaken 0 hreads
    (by decide +kernel)
  exact ⟨header, rsp, s', hshake, hrun, hout, hpending, hclosed⟩

end Lamb.WsServing
