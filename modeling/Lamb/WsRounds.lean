import Lamb.WsRoundTrip
import Lamb.Library.Runs

/-!
# The rounds of the WebSocket receiver

One iteration of the loop of `WSRecvMessage` either leaves the function or goes
on with a new assembly and stream. The iterations of a call are the states
reached by such rounds. Every round that goes on has read a frame head, so a
call ends with a round that leaves. The accesses of a round to `data` and its
update of `cur_len` are listed as events; whatever the peer sends, they stay
within the configured size.
-/

set_option autoImplicit false

namespace Lamb.WsRounds
open Lamb.ByteString Lamb.Blocks Lamb.ByteStream Lamb.WsSession Lamb.WsRoundTrip Lamb.Runs

inductive Outcome where
  | done (message : Option WSFrameMessage) (s : Stream)
  | again (a : Assembly) (s : Stream)

def IsData (opcode : BitVec 4) : Prop :=
  opcode = OPCODE.CONTINUE.code ∨ opcode = OPCODE.TEXT_FRAME.code ∨
    opcode = OPCODE.BIN_FRAME.code

instance decidableIsData (opcode : BitVec 4) : Decidable (IsData opcode) :=
  inferInstanceAs (Decidable (_ ∨ _))

def dataRound (client : Bool) (maxSize : UInt32) (head : WSFrameHead) (a : Assembly)
    (s : Stream) : Outcome :=
  match recvData client maxSize head a s with
  | .error s => .done none s.close
  | .ok (a, s) => if head.fin then .done (some ⟨a.opcode, a.data⟩) s else .again a s

/-- One iteration of the loop, the `break`s with the `close` behind the loop. -/
def recvRound (client : Bool) (maxSize : UInt32) (a : Assembly) (s : Stream) : Outcome :=
  match recvFix s 2 with
  | .error s => .done none s.close
  | .ok (bs, s) =>
    let head := WSFrameHead.ofBytes bs
    if head.opcode = OPCODE.PING.code then
      let r := wsPong s
      if r.1 ≤ 0 then .done none r.2.close else .again a r.2
    else if head.opcode = OPCODE.PONG.code then .again a s
    else if IsData head.opcode then dataRound client maxSize head a s
    else if head.opcode = OPCODE.CLOSE.code then .done none s.close
    else .again a s

theorem recvLoop_succ (client : Bool) (maxSize : UInt32) (fuel : ℕ) (a : Assembly) (s : Stream) :
    recvLoop client maxSize (fuel+1) a s =
      match recvRound client maxSize a s with
      | .done message s => (message, s)
      | .again a s => recvLoop client maxSize fuel a s := by
  rw [recvLoop, recvRound]
  cases recvFix s 2 with
  | error s => rfl
  | ok r =>
    obtain ⟨bs, s⟩ := r
    simp only [IsData, dataRound]
    cases recvData client maxSize (WSFrameHead.ofBytes bs) a s with
    | error s => split_ifs <;> rfl
    | ok r => split_ifs <;> rfl

def next (client : Bool) (maxSize : UInt32) (x : Assembly × Stream) (_ : Unit) :
    Option (Assembly × Stream) :=
  match recvRound client maxSize x.1 x.2 with
  | .done _ _ => none
  | .again a s => some (a, s)

/-- An iteration of `WSRecvMessage` on `s` starts with the assembly `a` and the
stream `t`. -/
def Iteration (client : Bool) (maxSize : UInt32) (s : Stream) (a : Assembly) (t : Stream) : Prop :=
  Reaches (next client maxSize) Free (⟨0, [], 0⟩, s) (a, t)

section Progress

variable (client : Bool) (maxSize : UInt32)

/-- What a fixed-size read that does not leave the function has stored. -/
theorem recvFix_got (s s' : Stream) (n : ℕ) (bs : Bytes) (h : recvFix s n = .ok (bs, s')) :
    bs.length = (toInt64 n).toNat ∧ bs ++ s'.pending = s.pending ∧ 0 < toInt n := by
  have hcons := readFixSize_conserves s n
  have hdone := readFixSize_complete s n
  rw [recvFix] at h
  rcases hread : s.readFixSize n with ⟨len, got, t⟩
  simp only [hread] at h hcons hdone
  split_ifs at h with hlen
  obtain ⟨rfl, rfl⟩ : got = bs ∧ t = s' := by simpa using h
  obtain ⟨hret, hgot⟩ := hdone (by omega)
  exact ⟨hgot, hcons, by omega⟩

theorem recvFix_pending (s s' : Stream) (n : ℕ) (bs : Bytes) (h : recvFix s n = .ok (bs, s')) :
    s'.pending.length+(toInt64 n).toNat = s.pending.length := by
  obtain ⟨hlen, hcons, -⟩ := recvFix_got s s' n bs h
  rw [← hcons, List.length_append, hlen, Nat.add_comm]

theorem recvLength_le (payload : BitVec 7) (s s' : Stream) (length : ℕ)
    (h : recvLength payload s = .ok (length, s')) :
    length < 2^64 ∧ s'.pending.length ≤ s.pending.length := by
  have hfix : ∀ n, n ≤ 8 → (recvFix s n >>= fun r => pure (byteswap n (leValue r.1), r.2)) =
      Except.ok (length, s') → length < 2^64 ∧ s'.pending.length ≤ s.pending.length := by
    intro n hn h
    cases hr : recvFix s n with
    | error e =>
      rw [hr] at h
      cases h
    | ok r =>
      obtain ⟨bs, t⟩ := r
      have hp := recvFix_pending s t n bs hr
      have hb := byteswap_lt n (leValue bs)
      rw [hr] at h
      obtain ⟨rfl, rfl⟩ : byteswap n (leValue bs) = length ∧ t = s' := by
        simpa [bind, Except.bind, pure, Except.pure] using h
      refine ⟨lt_of_lt_of_le hb ?_, by omega⟩
      exact le_trans (Nat.pow_le_pow_right (by decide) hn) (by decide)
  unfold recvLength at h
  split_ifs at h
  · exact hfix 2 (by decide) h
  · exact hfix 8 (by decide) h
  · have hpay := payload.isLt
    obtain ⟨rfl, rfl⟩ : payload.toNat = length ∧ s = s' := by simpa using h
    exact ⟨by omega, le_refl _⟩

theorem recvMask_le (mask : Bool) (s s' : Stream) (bs : Bytes)
    (h : recvMask mask s = .ok (bs, s')) : s'.pending.length ≤ s.pending.length := by
  unfold recvMask at h
  split_ifs at h
  · have := recvFix_pending s s' 4 bs h
    omega
  · obtain ⟨-, rfl⟩ : [0, 0, 0, 0] = bs ∧ s = s' := by simpa using h
    exact le_refl _

/-- The steps of a data frame that has been received as a whole. -/
theorem recvData_steps (head : WSFrameHead) (a a' : Assembly) (s s' : Stream)
    (h : recvData client maxSize head a s = .ok (a', s')) :
    ∃ length s₁ mask s₂ got, recvLength head.payload s = .ok (length, s₁) ∧
      totalLength a length < maxSize.toNat ∧ recvMask head.mask s₁ = .ok (mask, s₂) ∧
      recvFix s₂ length = .ok (got, s') ∧ ¬ IndexOverflow head a length ∧
      a' = assemble head a length mask got := by
  unfold recvData at h
  split_ifs at h
  cases h₁ : recvLength head.payload s with
  | error e =>
    rw [h₁] at h
    cases h
  | ok r₁ =>
    obtain ⟨length, s₁⟩ := r₁
    simp only [h₁, bind, Except.bind] at h
    by_cases hmax : maxSize.toNat ≤ totalLength a length
    · rw [if_pos hmax] at h
      cases h
    rw [if_neg hmax] at h
    cases h₂ : recvMask head.mask s₁ with
    | error e => simp [h₂] at h
    | ok r₂ =>
      obtain ⟨mask, s₂⟩ := r₂
      simp only [h₂] at h
      cases h₃ : recvFix s₂ length with
      | error e => simp [h₃] at h
      | ok r₃ =>
        obtain ⟨got, s₃⟩ := r₃
        simp only [h₃] at h
        by_cases hover : IndexOverflow head a length
        · rw [if_pos hover] at h
          cases h
        rw [if_neg hover] at h
        obtain ⟨rfl, rfl⟩ : assemble head a length mask got = a' ∧ s₃ = s' := by
          simpa [pure, Except.pure] using h
        exact ⟨length, s₁, mask, s₂, got, rfl, by omega, h₂, h₃, hover, rfl⟩

theorem recvData_le (head : WSFrameHead) (a a' : Assembly) (s s' : Stream)
    (h : recvData client maxSize head a s = .ok (a', s')) :
    s'.pending.length ≤ s.pending.length := by
  obtain ⟨length, s₁, mask, s₂, got, h₁, -, h₂, h₃, -, -⟩ :=
    recvData_steps client maxSize head a a' s s' h
  have l₁ := (recvLength_le head.payload s s₁ length h₁).2
  have l₂ := recvMask_le head.mask s₁ s₂ mask h₂
  have l₃ := recvFix_pending s₂ s' length got h₃
  omega

theorem wsPong_inbox (s : Stream) : (wsPong s).2.inbox = s.inbox := by
  unfold wsPong sendControl Stream.writeFixSize
  simp only
  split_ifs
  · exact writeLoop_inbox _ _ _ _ s
  · exact writeLoop_inbox _ _ _ _ s

theorem dataRound_again (head : WSFrameHead) (a a' : Assembly) (s s' : Stream)
    (h : dataRound client maxSize head a s = .again a' s') :
    recvData client maxSize head a s = .ok (a', s') := by
  unfold dataRound at h
  cases hd : recvData client maxSize head a s with
  | error e =>
    rw [hd] at h
    cases h
  | ok r =>
    simp only [hd] at h
    split_ifs at h
    obtain ⟨rfl, rfl⟩ : r.1 = a' ∧ r.2 = s' := by simpa using h
    rfl

theorem dataRound_message (head : WSFrameHead) (a : Assembly) (s s' : Stream)
    (m : WSFrameMessage) (h : dataRound client maxSize head a s = .done (some m) s') :
    ∃ a', recvData client maxSize head a s = .ok (a', s') ∧ m = ⟨a'.opcode, a'.data⟩ := by
  unfold dataRound at h
  cases hd : recvData client maxSize head a s with
  | error e =>
    rw [hd] at h
    cases h
  | ok r =>
    simp only [hd] at h
    split_ifs at h
    obtain ⟨rfl, rfl⟩ : ⟨r.1.opcode, r.1.data⟩ = m ∧ r.2 = s' := by simpa using h
    exact ⟨r.1, rfl, rfl⟩

/-- A round goes on after a data frame that is not the last one, and after every
other frame but `CLOSE`, of which it has read the head only. -/
theorem recvRound_again (a a' : Assembly) (s s' : Stream)
    (h : recvRound client maxSize a s = .again a' s') :
    ∃ bs t, recvFix s 2 = .ok (bs, t) ∧
      (recvData client maxSize (WSFrameHead.ofBytes bs) a t = .ok (a', s') ∨
        (a' = a ∧ s'.inbox = t.inbox)) := by
  unfold recvRound at h
  cases hr : recvFix s 2 with
  | error e =>
    rw [hr] at h
    cases h
  | ok r =>
    obtain ⟨bs, t⟩ := r
    refine ⟨bs, t, rfl, ?_⟩
    have hpong := wsPong_inbox t
    simp only [hr] at h
    split_ifs at h
    · obtain ⟨rfl, rfl⟩ : a = a' ∧ (wsPong t).2 = s' := by simpa using h
      exact .inr ⟨rfl, hpong⟩
    · obtain ⟨rfl, rfl⟩ : a = a' ∧ t = s' := by simpa using h
      exact .inr ⟨rfl, rfl⟩
    · exact .inl (dataRound_again client maxSize _ a a' t s' h)
    · obtain ⟨rfl, rfl⟩ : a = a' ∧ t = s' := by simpa using h
      exact .inr ⟨rfl, rfl⟩

/-- A round that returns a message has received a data frame. -/
theorem recvRound_message (a : Assembly) (s s' : Stream) (m : WSFrameMessage)
    (h : recvRound client maxSize a s = .done (some m) s') :
    ∃ bs t a', recvFix s 2 = .ok (bs, t) ∧
      recvData client maxSize (WSFrameHead.ofBytes bs) a t = .ok (a', s') ∧
      m = ⟨a'.opcode, a'.data⟩ := by
  unfold recvRound at h
  cases hr : recvFix s 2 with
  | error e =>
    rw [hr] at h
    cases h
  | ok r =>
    obtain ⟨bs, t⟩ := r
    simp only [hr] at h
    split_ifs at h
    · cases h
    · obtain ⟨a', hd, hm⟩ := dataRound_message client maxSize _ a t s' m h
      exact ⟨bs, t, a', rfl, hd, hm⟩
    · cases h

theorem recvRound_shrinks (a a' : Assembly) (s s' : Stream)
    (h : recvRound client maxSize a s = .again a' s') :
    s'.pending.length < s.pending.length := by
  obtain ⟨bs, t, hr, hcase⟩ := recvRound_again client maxSize a a' s s' h
  have hp := recvFix_pending s t 2 bs hr
  rw [toInt64_small 2 (by decide)] at hp
  rcases hcase with hd | ⟨-, hi⟩
  · have := recvData_le client maxSize _ a a' t s' hd
    omega
  · have : s'.pending = t.pending := by rw [Stream.pending, hi, Stream.pending]
    rw [this]
    omega

theorem recvLoop_last (fuel : ℕ) (a : Assembly) (s t : Stream)
    (hs : Iteration client maxSize s a t) (hf : t.pending.length < fuel) :
    ∃ a' t', Iteration client maxSize s a' t' ∧ recvRound client maxSize a' t' =
      .done (recvLoop client maxSize fuel a t).1 (recvLoop client maxSize fuel a t).2 := by
  induction fuel generalizing a t with
  | zero => omega
  | succ fuel ih =>
    rw [recvLoop_succ]
    cases hround : recvRound client maxSize a t with
    | done message t' => exact ⟨a, t, hs, hround⟩
    | again a' t' =>
      have hl := recvRound_shrinks client maxSize a a' t t' hround
      have hnext : next client maxSize (a, t) () = some (a', t') := by
        simp only [next, hround]
      exact ih a' t' (Reaches.step hs trivial hnext) (by omega)

/-- Every call ends, with the round that produces its result. -/
theorem wsRecvMessage_last (s : Stream) :
    ∃ a t, Iteration client maxSize s a t ∧ recvRound client maxSize a t =
      .done (wsRecvMessage s client maxSize).1 (wsRecvMessage s client maxSize).2 :=
  recvLoop_last client maxSize _ _ s s .start (Nat.lt_succ_self _)

end Progress

section Limit

/-- What an iteration does to `data` and `cur_len`: `data.resize`, a byte stored
at an index while `data` has the given size, and the exact sum that `cur_len +=`
assigns. -/
inductive Event where
  | resize (size : ℕ)
  | store (size : ℕ) (index : ℤ)
  | advance (sum : ℤ)

def Event.Safe (limit : ℕ) : Event → Prop
  | .resize size => size < limit
  | .store size index => 0 ≤ index ∧ index < size
  | .advance sum => -2^31 ≤ sum ∧ sum < 2^31

/-- The stores to `count` consecutive indices from `cur_len` on. -/
def stores (size : ℕ) (cur : ℤ) (count : ℕ) : List Event :=
  (List.range count).map fun i : ℕ => .store size (cur+(i:ℤ))

/-- The loop `data[cur_len + i] ^= mask[i % 4]`. -/
def unmaskStores (head : WSFrameHead) (a : Assembly) (length : ℕ) : List Event :=
  if head.mask then stores (totalLength a length) a.curLen (toInt length).toNat else []

/-- The payload of a data frame with its events. `readFixSize` stores what it
receives even if it fails later, and the unmasking loop stores every byte again. -/
def tracedPayload (head : WSFrameHead) (a : Assembly) (length : ℕ) (mask : Bytes) (s : Stream) :
    List Event × Except Stream (Assembly × Stream) :=
  let size := totalLength a length
  let r := s.readFixSize length
  let read := .resize size::stores size a.curLen r.2.1.length
  let unmasked := unmaskStores head a length
  if r.1 ≤ 0 then (read, .error r.2.2)
  else if IndexOverflow head a length then (read ++ unmasked, .error r.2.2)
  else (read ++ unmasked ++ [.advance (a.curLen+length)],
    .ok (assemble head a length mask r.2.1, r.2.2))

def tracedData (client : Bool) (maxSize : UInt32) (head : WSFrameHead) (a : Assembly)
    (s : Stream) : List Event × Except Stream (Assembly × Stream) :=
  if !client && !head.mask then ([], .error s) else
  match recvLength head.payload s with
  | .error s => ([], .error s)
  | .ok (length, s) =>
    if maxSize.toNat ≤ totalLength a length then ([], .error s) else
    match recvMask head.mask s with
    | .error s => ([], .error s)
    | .ok (mask, s) => tracedPayload head a length mask s

def events (client : Bool) (maxSize : UInt32) (a : Assembly) (s : Stream) : List Event :=
  match recvFix s 2 with
  | .error _ => []
  | .ok (bs, s) =>
    let head := WSFrameHead.ofBytes bs
    if IsData head.opcode then (tracedData client maxSize head a s).1 else []

variable (client : Bool) (maxSize : UInt32)

theorem tracedData_result (head : WSFrameHead) (a : Assembly) (s : Stream) :
    (tracedData client maxSize head a s).2 = recvData client maxSize head a s := by
  unfold tracedData recvData
  by_cases hrole : (!client && !head.mask) = true
  · rw [if_pos hrole, if_pos hrole]
  rw [if_neg hrole, if_neg hrole]
  cases recvLength head.payload s with
  | error e => rfl
  | ok r₁ =>
    obtain ⟨length, s₁⟩ := r₁
    simp only [bind, Except.bind]
    by_cases hmax : maxSize.toNat ≤ totalLength a length
    · rw [if_pos hmax, if_pos hmax]
    rw [if_neg hmax, if_neg hmax]
    cases recvMask head.mask s₁ with
    | error e => rfl
    | ok r₂ =>
      simp only [tracedPayload, recvFix]
      by_cases hread : (r₂.2.readFixSize length).1 ≤ 0
      · rw [if_pos hread, if_pos hread]
      · rw [if_neg hread, if_neg hread]
        split_ifs <;> rfl

/-- The counter is the size of `data`, below the limit. -/
structure Counted (limit : ℕ) (a : Assembly) : Prop where
  counter : a.curLen = a.data.length
  below : a.data.length < limit

theorem stores_safe (limit size count : ℕ) (cur : ℤ) (h0 : 0 ≤ cur) (h : cur+count ≤ size) :
    ∀ e ∈ stores size cur count, e.Safe limit := by
  intro e he
  obtain ⟨i, hi, rfl⟩ := List.mem_map.mp he
  have := List.mem_range.mp hi
  constructor <;> omega

theorem resize_length (data : Bytes) (n : ℕ) : (resize data n).length = n := by
  simp only [resize, List.length_append, List.length_take, List.length_replicate]
  omega

theorem assemble_length (head : WSFrameHead) (a : Assembly) (length : ℕ) (mask got : Bytes)
    (h : a.curLen.toNat+got.length = totalLength a length)
    (hint : (toInt length).toNat = got.length) :
    (assemble head a length mask got).data.length = totalLength a length := by
  have hdata : (overwrite (resize a.data (totalLength a length)) a.curLen.toNat got).length =
      totalLength a length := by
    rw [overwrite_length, resize_length]
    rw [resize_length]
    exact le_of_eq h
  simp only [assemble]
  split_ifs
  · rw [overwrite_length, hdata]
    simp only [applyMask_length, List.length_take, List.length_drop, hdata]
    omega
  · exact hdata

/-- A declared length that passes the size check either fits, or makes the sum
wrap. In the second case it is negative both as the `int64_t` that `readFixSize`
counts down and as the `int` that it returns. -/
theorem length_passed (limit : ℕ) (a : Assembly) (length : ℕ) (hc : Counted limit a)
    (hlimit : limit ≤ 2^31) (hlen : length < 2^64) (h : totalLength a length < limit) :
    (a.data.length+length < limit ∧ totalLength a length = a.data.length+length) ∨
      (toInt64 length < 0 ∧ toInt length < 0) := by
  have hb := hc.below
  simp only [totalLength, hc.counter] at h ⊢
  by_cases hfit : a.data.length+length < 2^64
  · left
    omega
  · right
    unfold toInt64 toInt
    rw [Int.bmod_def, Int.bmod_def]
    omega

section Fits

variable (limit : ℕ) (head : WSFrameHead) (a : Assembly) (length : ℕ) (mask : Bytes) (s : Stream)

theorem fitting_events (hc : Counted limit a) (hlimit : limit ≤ 2^31)
    (hfit : a.data.length+length < limit) (htot : totalLength a length = a.data.length+length) :
    ∀ e ∈ (tracedPayload head a length mask s).1, e.Safe limit := by
  have hcur := hc.counter
  have h32 : toInt length = length := toInt_small length (by omega)
  have hgot : (s.readFixSize length).2.1.length ≤ length := by
    have := readFixSize_at_most s length
    rw [toInt64_small length (by omega)] at this
    omega
  have hresize : (Event.resize (totalLength a length)).Safe limit := by
    rw [Event.Safe, htot]
    exact hfit
  have hread : ∀ e ∈ Event.resize (totalLength a length)::
      stores (totalLength a length) a.curLen (s.readFixSize length).2.1.length, e.Safe limit :=
    List.forall_mem_cons.mpr ⟨hresize, stores_safe limit _ _ a.curLen (by omega) (by omega)⟩
  have hunmask : ∀ e ∈ unmaskStores head a length, e.Safe limit := by
    unfold unmaskStores
    split_ifs
    · exact stores_safe limit _ _ a.curLen (by omega) (by omega)
    · exact fun e he => absurd he List.not_mem_nil
  have hsum : (Event.advance (a.curLen+length)).Safe limit := by
    constructor <;> omega
  simp only [tracedPayload]
  split_ifs
  · exact hread
  · exact List.forall_mem_append.mpr ⟨hread, hunmask⟩
  · exact List.forall_mem_append.mpr ⟨List.forall_mem_append.mpr ⟨hread, hunmask⟩,
      List.forall_mem_singleton.mpr hsum⟩

theorem fitting_counted (hc : Counted limit a) (hlimit : limit ≤ 2^31)
    (hfit : a.data.length+length < limit) (htot : totalLength a length = a.data.length+length)
    (a' : Assembly) (s' : Stream)
    (h : (tracedPayload head a length mask s).2 = .ok (a', s')) : Counted limit a' := by
  have hcur := hc.counter
  have h32 : toInt length = length := toInt_small length (by omega)
  simp only [tracedPayload] at h
  split_ifs at h with h₁ h₂
  obtain ⟨-, hgot⟩ := readFixSize_complete s length (not_le.mp h₁)
  rw [toInt64_small length (by omega), Int.toNat_natCast] at hgot
  obtain ⟨rfl, -⟩ : assemble head a length mask (s.readFixSize length).2.1 = a' ∧
      (s.readFixSize length).2.2 = s' := by simpa using h
  have hl := assemble_length head a length mask (s.readFixSize length).2.1 (by omega) (by omega)
  have hbmod : (a.curLen+(length:ℤ)).bmod (2^32) = a.curLen+length := by
    rw [Int.bmod_eq_of_le] <;> omega
  exact ⟨by rw [hl, assemble, hbmod, htot, hcur, Nat.cast_add], by omega⟩

end Fits

theorem tracedPayload_safe (limit : ℕ) (head : WSFrameHead) (a : Assembly) (length : ℕ)
    (mask : Bytes) (s : Stream) (hc : Counted limit a) (hlimit : limit ≤ 2^31)
    (hlen : length < 2^64) (h : totalLength a length < limit) :
    (∀ e ∈ (tracedPayload head a length mask s).1, e.Safe limit) ∧
      ∀ a' s', (tracedPayload head a length mask s).2 = .ok (a', s') → Counted limit a' := by
  rcases length_passed limit a length hc hlimit hlen h with ⟨hfit, htot⟩ | ⟨h64, h32⟩
  · exact ⟨fitting_events limit head a length mask s hc hlimit hfit htot,
      fitting_counted limit head a length mask s hc hlimit hfit htot⟩
  · have hr := readFixSize_negative s length h64
    unfold tracedPayload
    simp only [hr, le_of_lt h32, if_true]
    constructor
    · intro e he
      obtain rfl : e = .resize (totalLength a length) := by simpa [stores] using he
      exact h
    · intro a' s' heq
      cases heq

theorem tracedData_safe (head : WSFrameHead) (a : Assembly) (s : Stream)
    (hc : Counted maxSize.toNat a) (hlimit : maxSize.toNat ≤ 2^31) :
    (∀ e ∈ (tracedData client maxSize head a s).1, e.Safe maxSize.toNat) ∧
      ∀ a' s', (tracedData client maxSize head a s).2 = .ok (a', s') →
        Counted maxSize.toNat a' := by
  have hnothing : ∀ t : Stream, (∀ e ∈ ([] : List Event), e.Safe maxSize.toNat) ∧
      ∀ a' s', (Except.error t : Except Stream (Assembly × Stream)) = .ok (a', s') →
        Counted maxSize.toNat a' := by
    intro t
    exact ⟨fun e he => absurd he List.not_mem_nil, fun a' s' h => by cases h⟩
  unfold tracedData
  by_cases hrole : (!client && !head.mask) = true
  · rw [if_pos hrole]
    exact hnothing s
  rw [if_neg hrole]
  cases h₁ : recvLength head.payload s with
  | error t => exact hnothing t
  | ok r₁ =>
    obtain ⟨length, s₁⟩ := r₁
    have hlen := (recvLength_le head.payload s s₁ length h₁).1
    simp only
    by_cases hmax : maxSize.toNat ≤ totalLength a length
    · rw [if_pos hmax]
      exact hnothing s₁
    rw [if_neg hmax]
    cases recvMask head.mask s₁ with
    | error t => exact hnothing t
    | ok r₂ =>
      exact tracedPayload_safe maxSize.toNat head a length r₂.1 r₂.2 hc hlimit hlen
        (not_le.mp hmax)

theorem recvData_counted (head : WSFrameHead) (a a' : Assembly) (s s' : Stream)
    (hc : Counted maxSize.toNat a) (hlimit : maxSize.toNat ≤ 2^31)
    (h : recvData client maxSize head a s = .ok (a', s')) : Counted maxSize.toNat a' := by
  rw [← tracedData_result] at h
  exact (tracedData_safe client maxSize head a s hc hlimit).2 a' s' h

/-- Whatever arrives, a round that starts below the limit keeps its accesses in
bounds. -/
theorem events_safe (a : Assembly) (s : Stream) (hc : Counted maxSize.toNat a)
    (hlimit : maxSize.toNat ≤ 2^31) :
    ∀ e ∈ events client maxSize a s, e.Safe maxSize.toNat := by
  unfold events
  cases recvFix s 2 with
  | error t => exact fun e he => absurd he List.not_mem_nil
  | ok r =>
    simp only
    split_ifs
    · exact (tracedData_safe client maxSize _ a r.2 hc hlimit).1
    · exact fun e he => absurd he List.not_mem_nil

theorem iteration_counted (s t : Stream) (a : Assembly) (h0 : 0 < maxSize.toNat)
    (hlimit : maxSize.toNat ≤ 2^31) (h : Iteration client maxSize s a t) :
    Counted maxSize.toNat a := by
  refine Reaches.invariant (I := fun x => Counted maxSize.toNat x.1) ?_ ?_ h
  · exact ⟨rfl, h0⟩
  · intro x _ y hx _ hy
    unfold next at hy
    cases hround : recvRound client maxSize x.1 x.2 with
    | done m t =>
      rw [hround] at hy
      cases hy
    | again a' t' =>
      obtain rfl : (a', t') = y := by simpa [hround] using hy
      obtain ⟨bs, t, -, hd | ⟨rfl, -⟩⟩ := recvRound_again client maxSize x.1 a' x.2 t' hround
      · exact recvData_counted client maxSize _ x.1 a' t t' hx hlimit hd
      · exact hx

/-- The configured maximum holds against every peer: in every iteration `data` is
resized below it, bytes are stored inside `data` and the sum assigned to
`cur_len` is an `int`; a message that comes back is shorter than it. -/
theorem message_size_limit (s : Stream) (h0 : 0 < maxSize.toNat) (hlimit : maxSize.toNat ≤ 2^31) :
    (∀ a t, Iteration client maxSize s a t →
      ∀ e ∈ events client maxSize a t, e.Safe maxSize.toNat) ∧
    ∀ m, (wsRecvMessage s client maxSize).1 = some m → m.data.length < maxSize.toNat := by
  constructor
  · intro a t h
    exact events_safe client maxSize a t (iteration_counted client maxSize s t a h0 hlimit h) hlimit
  · intro m hm
    obtain ⟨a, t, hit, hround⟩ := wsRecvMessage_last client maxSize s
    have hc := iteration_counted client maxSize s t a h0 hlimit hit
    rw [hm] at hround
    obtain ⟨bs, t', a', -, hd, rfl⟩ := recvRound_message client maxSize a t _ m hround
    exact (recvData_counted client maxSize _ a a' t' _ hc hlimit hd).below

/-- A fragment of one byte, then a declared length of `2^64-1` that makes the sum
with `cur_len` wrap to zero. -/
def wrappingLength : Stream :=
  receiver [⟨[0x01, 0x81, 1, 2, 3, 4, 0x60, 0x80, 0xff, 255, 255, 255, 255, 255, 255, 255, 255,
    1, 2, 3, 4, 0x61], by decide⟩]

theorem message_size_limit_wrapping :
    (∀ a t, Iteration false 16 wrappingLength a t →
      ∀ e ∈ events false 16 a t, e.Safe (16:UInt32).toNat) ∧
    ∀ m, (wsRecvMessage wrappingLength false 16).1 = some m → m.data.length < (16:UInt32).toNat :=
  message_size_limit false 16 wrappingLength (by decide) (by decide)

end Limit

end Lamb.WsRounds
