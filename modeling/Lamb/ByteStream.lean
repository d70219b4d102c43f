import Lamb.Library.ByteString

/-!
# Streams and their fixed-size helpers

A stream delivers its incoming bytes in non-empty pieces and accepts outgoing
bytes in non-empty pieces. The size of each piece is chosen by the transport:
a read hands out at most one pending piece, a write takes at most its next
grant. The fixed-size helpers loop over such calls and return the C `int` of
the requested length, which for length zero is also their failure value.
-/

set_option autoImplicit false

namespace Lamb.ByteStream
open Lamb.ByteString

structure Piece where
  bytes : Bytes
  nonempty : bytes ≠ []

def Piece.drop (p : Piece) (n : ℕ) (h : n < p.bytes.length) : Piece where
  bytes := p.bytes.drop n
  nonempty := by
    intro he
    have hl := congrArg List.length he
    simp only [List.length_drop, List.length_nil] at hl
    omega

/-- `inbox` holds the pieces that the transport will still deliver, `grants`
the sizes (minus one) of the next partial writes, `outbox` all bytes written. -/
structure Stream where
  inbox : List Piece
  grants : List ℕ
  outbox : Bytes
  closed : Bool

def Stream.pending (s : Stream) : Bytes := s.inbox.flatMap Piece.bytes

/-- The conversions of a `size_t` to `int` and to `int64_t`. -/
def toInt (n : ℕ) : ℤ := (n:ℤ).bmod (2^32)

def toInt64 (n : ℕ) : ℤ := (n:ℤ).bmod (2^64)

def Stream.close (s : Stream) : Stream := { s with closed := true }

/-- `Stream::read`: the returned count, the bytes stored and the stream after. -/
def Stream.read (s : Stream) (length : ℕ) : ℤ × Bytes × Stream :=
  if s.closed then (-1, [], s) else
  match s.inbox with
  | [] => (0, [], s)
  | p::rest =>
    if h : length < p.bytes.length then
      (length, p.bytes.take length, { s with inbox := p.drop length h::rest })
    else (p.bytes.length, p.bytes, { s with inbox := rest })

/-- `Stream::write`: the returned count and the stream after. -/
def Stream.write (s : Stream) (buf : Bytes) : ℤ × Stream :=
  if s.closed then (-1, s) else
  match s.grants with
  | [] => (buf.length, { s with outbox := s.outbox ++ buf })
  | g::gs =>
    let n := min (g+1) buf.length
    (n, { s with grants := gs, outbox := s.outbox ++ buf.take n })

/-- The `while(left > 0)` loop of `Stream::readFixSize`. Every iteration that
goes on has read at least one byte, so `length` iterations suffice. -/
def readLoop (length : ℕ) : ℕ → ℤ → Bytes → Stream → ℤ × Bytes × Stream
  | 0, _, buffer, s => (toInt length, buffer, s)
  | fuel+1, left, buffer, s =>
    if left ≤ 0 then (toInt length, buffer, s) else
    match s.read left.toNat with
    | (len, got, s') =>
      if len ≤ 0 then (len, buffer ++ got, s')
      else readLoop length fuel (left-len) (buffer ++ got) s'

def Stream.readFixSize (s : Stream) (length : ℕ) : ℤ × Bytes × Stream :=
  readLoop length length (toInt64 length) [] s

def writeLoop (length : ℕ) : ℕ → ℤ → Bytes → Stream → ℤ × Stream
  | 0, _, _, s => (toInt length, s)
  | fuel+1, left, rest, s =>
    if left ≤ 0 then (toInt length, s) else
    match s.write rest with
    | (len, s') =>
      if len ≤ 0 then (len, s')
      else writeLoop length fuel (left-len) (rest.drop len.toNat) s'

def Stream.writeFixSize (s : Stream) (buf : Bytes) : ℤ × Stream :=
  writeLoop buf.length buf.length (toInt64 buf.length) buf s

theorem toInt64_small (n : ℕ) (h : n < 2^63) : toInt64 n = n := by
  unfold toInt64
  rw [Int.bmod_eq_of_le] <;> omega

theorem toInt_small (n : ℕ) (h : n < 2^31) : toInt n = n := by
  unfold toInt
  rw [Int.bmod_eq_of_le] <;> omega

/-- One read of an open stream takes a non-empty prefix of the pending bytes. -/
theorem read_open (s : Stream) (n : ℕ) (ho : s.closed = false) (hn : 0 < n)
    (hp : s.pending ≠ []) : ∃ k s', 0 < k ∧ k ≤ n ∧ k ≤ s.pending.length ∧
      s.read n = ((k:ℤ), s.pending.take k, s') ∧ s'.pending = s.pending.drop k ∧
      s'.closed = false ∧ s'.outbox = s.outbox ∧ s'.grants = s.grants := by
  cases hi : s.inbox with
  | nil => simp [Stream.pending, hi] at hp
  | cons p rest =>
    have hpos : 0 < p.bytes.length := List.length_pos_iff.mpr p.nonempty
    by_cases h : n < p.bytes.length
    · refine ⟨n, { s with inbox := p.drop n h::rest }, hn, le_refl _, ?_, ?_, ?_, ho, rfl, rfl⟩
      · simp only [Stream.pending, hi, List.flatMap_cons, List.length_append]
        omega
      · simp [Stream.read, ho, hi, h, Stream.pending, List.take_append_of_le_length (le_of_lt h)]
      · simp [Stream.pending, hi, Piece.drop, List.drop_append_of_le_length (le_of_lt h)]
    · refine ⟨p.bytes.length, { s with inbox := rest }, hpos, by omega, ?_, ?_, ?_, ho, rfl, rfl⟩
      · simp [Stream.pending, hi]
      · simp [Stream.read, ho, hi, h, Stream.pending]
      · simp [Stream.pending, hi]

theorem read_drained (s : Stream) (n : ℕ) (ho : s.closed = false) (hp : s.pending = []) :
    s.read n = (0, [], s) := by
  cases hi : s.inbox with
  | nil => simp [Stream.read, ho, hi]
  | cons p rest =>
    simp only [Stream.pending, hi, List.flatMap_cons, List.append_eq_nil_iff] at hp
    exact absurd hp.1 p.nonempty

theorem readLoop_ok (length fuel left : ℕ) (buffer : Bytes) (s : Stream)
    (ho : s.closed = false) (hf : left ≤ fuel) (hl : left ≤ s.pending.length) :
    ∃ s', readLoop length fuel left buffer s =
        (toInt length, buffer ++ s.pending.take left, s') ∧
      s'.pending = s.pending.drop left ∧ s'.closed = false ∧
      s'.outbox = s.outbox ∧ s'.grants = s.grants := by
  induction fuel generalizing left buffer s with
  | zero =>
    obtain rfl : left = 0 := by omega
    exact ⟨s, by simp [readLoop], by simp, ho, rfl, rfl⟩
  | succ fuel ih =>
    by_cases h0 : left = 0
    · subst h0
      exact ⟨s, by simp [readLoop], by simp, ho, rfl, rfl⟩
    have hp : s.pending ≠ [] := by
      intro he
      simp only [he, List.length_nil] at hl
      omega
    obtain ⟨k, s₁, hk, hkn, hkl, hr, hp₁, hc₁, hout₁, hg₁⟩ :=
      read_open s left ho (by omega) hp
    obtain ⟨s₂, hrun, hp₂, hc₂, hout₂, hg₂⟩ := ih (left-k) (buffer ++ s.pending.take k) s₁ hc₁
      (by omega) (by rw [hp₁, List.length_drop]; omega)
    refine ⟨s₂, ?_, ?_, hc₂, hout₂.trans hout₁, hg₂.trans hg₁⟩
    · have hleft : ¬ ((left:ℤ) ≤ 0) := by omega
      have hlen : ¬ ((k:ℤ) ≤ 0) := by omega
      have hsub : (left:ℤ)-(k:ℤ) = ((left-k:ℕ):ℤ) := by omega
      simp only [readLoop, hleft, if_false, Int.toNat_natCast, hr, hlen, hsub, hrun, hp₁]
      rw [List.append_assoc, ← List.take_add, Nat.add_sub_cancel' hkn]
    · rw [hp₂, hp₁, List.drop_drop, Nat.add_sub_cancel' hkn]

theorem readLoop_short (length fuel left : ℕ) (buffer : Bytes) (s : Stream)
    (ho : s.closed = false) (hf : left ≤ fuel) (hl : s.pending.length < left) :
    (readLoop length fuel left buffer s).1 = 0 := by
  induction fuel generalizing left buffer s with
  | zero => omega
  | succ fuel ih =>
    have hleft : ¬ ((left:ℤ) ≤ 0) := by omega
    by_cases hp : s.pending = []
    · simp only [readLoop, hleft, if_false, read_drained s _ ho hp, le_refl, if_true]
    · obtain ⟨k, s₁, hk, hkn, hkl, hr, hp₁, hc₁, _, _⟩ := read_open s left ho (by omega) hp
      have hlen : ¬ ((k:ℤ) ≤ 0) := by omega
      have hsub : (left:ℤ)-(k:ℤ) = ((left-k:ℕ):ℤ) := by omega
      simp only [readLoop, hleft, if_false, Int.toNat_natCast, hr, hlen, hsub]
      apply ih _ _ _ hc₁ (by omega)
      rw [hp₁, List.length_drop]
      omega

/-- With enough bytes pending, a fixed-size read takes exactly the first
`length` of them, however the transport cuts them. -/
theorem readFixSize_ok (s : Stream) (length : ℕ) (ho : s.closed = false)
    (h : length < 2^63) (hl : length ≤ s.pending.length) :
    ∃ s', s.readFixSize length = (toInt length, s.pending.take length, s') ∧
      s'.pending = s.pending.drop length ∧ s'.closed = false ∧
      s'.outbox = s.outbox ∧ s'.grants = s.grants := by
  unfold Stream.readFixSize
  rw [toInt64_small length h]
  simpa using readLoop_ok length length length [] s ho (le_refl _) hl

theorem readFixSize_short (s : Stream) (length : ℕ) (ho : s.closed = false)
    (h : length < 2^63) (hl : s.pending.length < length) :
    (s.readFixSize length).1 = 0 := by
  unfold Stream.readFixSize
  rw [toInt64_small length h]
  exact readLoop_short length length length [] s ho (le_refl _) hl

/-- A read moves a prefix of the pending bytes into the buffer. -/
theorem read_conserves (s : Stream) (n : ℕ) :
    (s.read n).2.1 ++ (s.read n).2.2.pending = s.pending := by
  unfold Stream.read
  split_ifs with hc
  · rfl
  · cases hi : s.inbox with
    | nil => rfl
    | cons p rest =>
      simp only
      split_ifs with h
      · simp [Stream.pending, hi, Piece.drop, ← List.append_assoc]
      · simp [Stream.pending, hi]

theorem read_at_most (s : Stream) (n : ℕ) : (s.read n).2.1.length ≤ n := by
  unfold Stream.read
  split_ifs with hc
  · exact Nat.zero_le n
  · cases hi : s.inbox with
    | nil => exact Nat.zero_le n
    | cons p rest =>
      simp only
      split_ifs with h
      · exact List.length_take_le n _
      · exact Nat.le_of_not_lt h

theorem read_count (s : Stream) (n : ℕ) (h : 0 < (s.read n).1) :
    (s.read n).1 = (s.read n).2.1.length := by
  revert h
  unfold Stream.read
  split_ifs with hc
  · intro h
    simp only at h
    omega
  · cases hi : s.inbox with
    | nil => exact fun _ => rfl
    | cons p rest =>
      simp only
      split_ifs with hl
      · intro _
        rw [List.length_take, Nat.min_eq_left (le_of_lt hl)]
      · exact fun _ => rfl

theorem readLoop_conserves (length fuel : ℕ) (left : ℤ) (buffer : Bytes) (s : Stream) :
    (readLoop length fuel left buffer s).2.1 ++ (readLoop length fuel left buffer s).2.2.pending =
      buffer ++ s.pending := by
  induction fuel generalizing left buffer s with
  | zero => rfl
  | succ fuel ih =>
    have hr := read_conserves s left.toNat
    simp only [readLoop]
    split_ifs
    · rfl
    · rw [List.append_assoc, hr]
    · rw [ih, List.append_assoc, hr]

theorem readLoop_at_most (length fuel : ℕ) (left : ℤ) (buffer : Bytes) (s : Stream) :
    (readLoop length fuel left buffer s).2.1.length ≤ buffer.length+left.toNat := by
  induction fuel generalizing left buffer s with
  | zero => exact Nat.le_add_right _ _
  | succ fuel ih =>
    have hr := read_at_most s left.toNat
    have hc := read_count s left.toNat
    rcases hread : s.read left.toNat with ⟨len, got, s'⟩
    simp only [hread] at hr hc
    simp only [readLoop, hread]
    split_ifs with h₁ h₂
    · exact Nat.le_add_right _ _
    · rw [List.length_append]
      exact Nat.add_le_add_left hr _
    · have hrest := ih (left-len) (buffer ++ got) s'
      rw [List.length_append] at hrest
      have hlen := hc (by omega)
      have hleft : got.length+(left-len).toNat ≤ left.toNat := by omega
      rw [Nat.add_assoc] at hrest
      exact le_trans hrest (Nat.add_le_add_left hleft _)

/-- The loop returns a positive count only after it has stored all it wanted. -/
theorem readLoop_complete (length fuel : ℕ) (left : ℤ) (buffer : Bytes) (s : Stream)
    (hf : left ≤ fuel) (h : 0 < (readLoop length fuel left buffer s).1) :
    (readLoop length fuel left buffer s).1 = toInt length ∧
      (readLoop length fuel left buffer s).2.1.length = buffer.length+left.toNat := by
  induction fuel generalizing left buffer s with
  | zero =>
    have h0 : left.toNat = 0 := by omega
    simp only [readLoop, h0, Nat.add_zero, and_self]
  | succ fuel ih =>
    have hc := read_count s left.toNat
    have hr := read_at_most s left.toNat
    rcases hread : s.read left.toNat with ⟨len, got, s'⟩
    simp only [hread] at hr hc
    simp only [readLoop, hread] at h ⊢
    split_ifs at h ⊢ with h₁ h₂
    · have h0 : left.toNat = 0 := by omega
      simp only [h0, Nat.add_zero, and_self]
    · exact absurd h (by omega)
    · have hlen := hc (by omega)
      have hleft : got.length+(left-len).toNat = left.toNat := by omega
      obtain ⟨hret, hgot⟩ := ih _ _ _ (by omega) h
      rw [hgot, List.length_append, Nat.add_assoc, hleft]
      exact ⟨hret, rfl⟩

theorem readFixSize_conserves (s : Stream) (length : ℕ) :
    (s.readFixSize length).2.1 ++ (s.readFixSize length).2.2.pending = s.pending := by
  unfold Stream.readFixSize
  exact readLoop_conserves length length (toInt64 length) [] s

theorem readFixSize_at_most (s : Stream) (length : ℕ) :
    (s.readFixSize length).2.1.length ≤ (toInt64 length).toNat := by
  unfold Stream.readFixSize
  simpa using readLoop_at_most length length (toInt64 length) [] s

theorem readFixSize_complete (s : Stream) (length : ℕ) (h : 0 < (s.readFixSize length).1) :
    (s.readFixSize length).1 = toInt length ∧
      (s.readFixSize length).2.1.length = (toInt64 length).toNat := by
  unfold Stream.readFixSize at h ⊢
  have hle : toInt64 length ≤ length := by
    unfold toInt64
    rw [Int.bmod_def]
    omega
  simpa using readLoop_complete length length (toInt64 length) [] s hle h

/-- A length that is negative as an `int64_t` skips the loop. -/
theorem readFixSize_negative (s : Stream) (length : ℕ) (h : toInt64 length < 0) :
    s.readFixSize length = (toInt length, [], s) := by
  unfold Stream.readFixSize
  cases length with
  | zero => exact absurd h (by decide)
  | succ n => rw [readLoop, if_pos (le_of_lt h)]

/-- One write of an open stream accepts a non-empty prefix of the buffer. -/
theorem write_open (s : Stream) (buf : Bytes) (ho : s.closed = false) (hb : buf ≠ []) :
    ∃ k s', 0 < k ∧ k ≤ buf.length ∧ s.write buf = ((k:ℤ), s') ∧
      s'.outbox = s.outbox ++ buf.take k ∧ s'.closed = false ∧ s'.inbox = s.inbox := by
  have hpos : 0 < buf.length := List.length_pos_iff.mpr hb
  cases hg : s.grants with
  | nil =>
    refine ⟨buf.length, { s with outbox := s.outbox ++ buf }, hpos, le_refl _, ?_, ?_, ho, rfl⟩
    · simp [Stream.write, ho, hg]
    · simp
  | cons g gs =>
    refine ⟨min (g+1) buf.length,
      { s with grants := gs, outbox := s.outbox ++ buf.take (min (g+1) buf.length) },
      by omega, by omega, ?_, rfl, ho, rfl⟩
    simp [Stream.write, ho, hg]

theorem write_inbox (s : Stream) (buf : Bytes) : (s.write buf).2.inbox = s.inbox := by
  unfold Stream.write
  split_ifs
  · rfl
  · cases s.grants <;> rfl

theorem writeLoop_inbox (length fuel : ℕ) (left : ℤ) (rest : Bytes) (s : Stream) :
    (writeLoop length fuel left rest s).2.inbox = s.inbox := by
  induction fuel generalizing left rest s with
  | zero => rfl
  | succ fuel ih =>
    simp only [writeLoop]
    split_ifs
    · rfl
    · exact write_inbox s rest
    · rw [ih, write_inbox]

theorem writeLoop_ok (length fuel : ℕ) (rest : Bytes) (s : Stream)
    (ho : s.closed = false) (hf : rest.length ≤ fuel) :
    ∃ s', writeLoop length fuel rest.length rest s = (toInt length, s') ∧
      s'.outbox = s.outbox ++ rest ∧ s'.closed = false ∧ s'.inbox = s.inbox := by
  induction fuel generalizing rest s with
  | zero =>
    obtain rfl : rest = [] := List.length_eq_zero_iff.mp (by omega)
    exact ⟨s, by simp [writeLoop], by simp, ho, rfl⟩
  | succ fuel ih =>
    by_cases h0 : rest = []
    · subst h0
      exact ⟨s, by simp [writeLoop], by simp, ho, rfl⟩
    obtain ⟨k, s₁, hk, hkl, hw, hout₁, hc₁, hi₁⟩ := write_open s rest ho h0
    obtain ⟨s₂, hrun, hout₂, hc₂, hi₂⟩ := ih (rest.drop k) s₁ hc₁
      (by rw [List.length_drop]; omega)
    refine ⟨s₂, ?_, ?_, hc₂, hi₂.trans hi₁⟩
    · have hleft : ¬ ((rest.length:ℤ) ≤ 0) := by omega
      have hlen : ¬ ((k:ℤ) ≤ 0) := by omega
      have hsub : (rest.length:ℤ)-(k:ℤ) = ((rest.drop k).length:ℤ) := by
        rw [List.length_drop]
        omega
      simp only [writeLoop, hleft, if_false, hw, hlen, hsub, Int.toNat_natCast, hrun]
    · rw [hout₂, hout₁, List.append_assoc, List.take_append_drop]

/-- A fixed-size write of an open stream appends the whole buffer. -/
theorem writeFixSize_ok (s : Stream) (buf : Bytes) (ho : s.closed = false)
    (h : buf.length < 2^63) :
    ∃ s', s.writeFixSize buf = (toInt buf.length, s') ∧
      s'.outbox = s.outbox ++ buf ∧ s'.closed = false ∧ s'.inbox = s.inbox := by
  unfold Stream.writeFixSize
  rw [toInt64_small _ h]
  exact writeLoop_ok buf.length buf.length buf s ho (le_refl _)

end Lamb.ByteStream
