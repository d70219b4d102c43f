import Lamb.ByteArrayPositional
import Lamb.ByteStream

/-!
# Stream input and output on a byte array

`SocketStream` receives into the write buffers of a byte array and sends from its read
buffers, and moves the cursor by what the socket transferred. `readFixSize` and
`writeFixSize` repeat that until the asked number of bytes has passed. However the
socket cuts the transfer, the array and the wire end up as after one transfer.
-/

set_option autoImplicit false

namespace Lamb.ByteArray
open Lamb.ByteString Lamb.Blocks Lamb.ByteStream

def maxTransfer : ℕ := 0x7ffff000

/-- The bytes of one `recvmsg`. -/
structure Chunk where
  bytes : Bytes
  nonempty : 0 < bytes.length
  length_le : bytes.length ≤ maxTransfer

/-- The number of bytes of one `sendmsg`. -/
structure Count where
  count : ℕ
  pos : 0 < count
  count_le : count ≤ maxTransfer

inductive Reply (α : Type) where
  | disconnected
  | error
  | closed
  | moved (data : α)

def cut : ℕ → List Span → List Span
  | _, [] => []
  | k, sp::rest =>
    if k = 0 then []
    else if k ≤ sp.len then [⟨sp.node, sp.off, k⟩]
    else sp::cut (k-sp.len) rest

/-- `recvmsg` on `iovec`s inside the nodes. -/
def fill (iovs : List Span) (data : Bytes) : Op Unit := fun s =>
  match store s.nodes (cut data.length iovs) data with
  | .error e => .error e s
  | .ok nodes => .ok () { s with nodes := nodes }

/-- `SocketStream::read(ba, length)`. -/
def socketRead (length : ℕ) : Reply Bytes → Op ℤ
  | .disconnected => pure (-1)
  | .error => do
    let _ ← getWriteBuffers length
    pure (-1)
  | .closed => do
    let _ ← getWriteBuffers length
    pure 0
  | .moved data => do
    let iovs ← getWriteBuffers length
    fill iovs.2 data
    let rt := toInt data.length
    let s ← get
    if 0 < rt then setPosition (s.getPosition+rt.toNat)
    pure rt

/-- `SocketStream::write(ba, length)`: the answer and the bytes on the wire. -/
def socketWrite (length : ℕ) : Reply ℕ → Op (ℤ × Bytes)
  | .disconnected => pure (-1, [])
  | .error => do
    let _ ← observe fun s => getReadBuffers s length
    pure (-1, [])
  | .closed => do
    let _ ← observe fun s => getReadBuffers s length
    pure (0, [])
  | .moved k => do
    let iovs ← observe fun s => getReadBuffers s length
    let data ← observe fun s => load s.nodes (cut k iovs.2)
    let rt := toInt k
    let s ← get
    if 0 < rt then setPosition (s.getPosition+rt.toNat)
    pure (rt, data)

/-- The loop of `Stream::readFixSize(ba, length)` over the replies of the socket, none
while it still waits for one. -/
def readFixLoop (length : ℕ) : List (Reply Bytes) → ℤ → Op (Option ℤ)
  | [], left => pure (if left ≤ 0 then some (toInt length) else none)
  | reply::rest, left =>
    if left ≤ 0 then pure (some (toInt length)) else do
    let len ← socketRead left.toNat reply
    if len ≤ 0 then pure (some len) else readFixLoop length rest (left-len)

def readFixSize (length : ℕ) (replies : List (Reply Bytes)) : Op (Option ℤ) :=
  readFixLoop length replies (toInt64 length)

/-- The loop of `Stream::writeFixSize(ba, length)`, with the bytes on the wire so far. -/
def writeFixLoop (length : ℕ) : List (Reply ℕ) → ℤ → Bytes → Op (Option ℤ × Bytes)
  | [], left, wire => pure (if left ≤ 0 then some (toInt length) else none, wire)
  | reply::rest, left, wire =>
    if left ≤ 0 then pure (some (toInt length), wire) else do
    let (len, data) ← socketWrite left.toNat reply
    if len ≤ 0 then pure (some len, wire ++ data)
    else writeFixLoop length rest (left-len) (wire ++ data)

def writeFixSize (length : ℕ) (replies : List (Reply ℕ)) : Op (Option ℤ × Bytes) :=
  writeFixLoop length replies (toInt64 length) []

/-- Transfers of these sizes, each at most what is still asked for, pass `left` bytes. -/
def Pass : ℕ → List ℕ → Prop
  | left, [] => left = 0
  | left, k::ks => k ≤ left ∧ Pass (left-k) ks

instance decidablePass : (left : ℕ) → (ks : List ℕ) → Decidable (Pass left ks)
  | left, [] => inferInstanceAs (Decidable (left = 0))
  | left, k::ks =>
    have : Decidable (Pass (left-k) ks) := decidablePass (left-k) ks
    inferInstanceAs (Decidable (k ≤ left ∧ Pass (left-k) ks))

theorem cut_tiles (b : ℕ) (spans : List Span) (p q k : ℕ) (ht : Tiles b spans p q)
    (hk : p+k ≤ q) : Tiles b (cut k spans) p (p+k) := by
  induction spans generalizing p k with
  | nil =>
    have hpq : p = q := ht
    exact show p = p+k by omega
  | cons sp rest ih =>
    obtain ⟨hp, hl, hfit, hrest⟩ := ht
    rw [cut]
    by_cases h0 : k = 0
    · rw [if_pos h0, h0]
      rfl
    rw [if_neg h0]
    by_cases hlast : k ≤ sp.len
    · rw [if_pos hlast]
      exact ⟨hp, by simp only; omega, by simp only; omega, rfl⟩
    · rw [if_neg hlast]
      have hcut := ih (p+sp.len) (k-sp.len) hrest (by omega)
      rw [show p+sp.len+(k-sp.len) = p+k by omega] at hcut
      exact ⟨hp, hl, hfit, hcut⟩

/-- Bytes received into tiles at the cursor, with the cursor moved behind them, are
written bytes. -/
theorem fill_wrote (s : ByteArray) (h : Inv s) (iovs : List Span) (q : ℕ) (data : Bytes)
    (ht : Tiles s.baseSize iovs s.position q) (hle : s.position+data.length ≤ q)
    (hq : q ≤ s.capacity) :
    ∃ u t, fill iovs data s = .ok () u ∧ u.position = s.position ∧
      setPosition (s.position+data.length) u = .ok () t ∧ Wrote s data t := by
  have hc := h.capacity_eq
  have hl := h.flat_length
  obtain ⟨nodes, hst, hn, hlen, hflat⟩ := store_tiles s.baseSize s.nodes h.nodes_of _ _ _ data
    (cut_tiles _ _ _ _ _ ht hle) (by omega) rfl
  have hi : Inv { s with nodes := nodes } :=
    { base_pos := h.base_pos
      nodes_of := hn
      root := by simp only [hlen, h.root]
      capacity_eq := by simp only [hlen, hc]
      position_le := h.position_le
      size_le := h.size_le
      cur_eq := by simp only [hlen, h.cur_eq] }
  obtain ⟨hset, hinv⟩ := setPosition_ok _ hi (s.position+data.length)
    (le_trans hle hq)
  refine ⟨{ s with nodes := nodes }, _, by rw [fill, hst], rfl, hset, hinv, rfl, rfl, rfl, rfl, ?_⟩
  rw [content, moved]
  simp only
  rw [hflat, overwrite_take _ _ _ _ h.position_le (by omega), ← content]

theorem toInt_transfer (k : ℕ) (hk : k ≤ maxTransfer) : toInt k = k := by
  unfold maxTransfer at hk
  exact toInt_small k (by omega)

/-- One `SocketStream::read` that receives a chunk. -/
theorem socketRead_wrote (s : ByteArray) (h : Inv s) (length : ℕ) (hsz : length < 2^53)
    (chunk : Chunk) (hle : chunk.bytes.length ≤ length) :
    ∃ t, socketRead length (.moved chunk.bytes) s = .ok chunk.bytes.length t ∧
      Wrote s chunk.bytes t := by
  obtain ⟨iovs, r, hbuf, hg, hcap, ht⟩ := getWriteBuffers_ok s h length hsz
  rw [← hg.baseSize_eq, ← hg.position_eq] at ht
  obtain ⟨u, t, hfill, hpos, hset, hw⟩ := fill_wrote r hg.inv iovs _ chunk.bytes ht (by omega)
    (by rw [hg.position_eq]; exact hcap)
  have hrt := toInt_transfer _ chunk.length_le
  have hnat : (chunk.bytes.length : ℤ).toNat = chunk.bytes.length := Int.toNat_natCast _
  have hmove : (0 : ℤ) < chunk.bytes.length := by
    have := chunk.nonempty
    omega
  refine ⟨t, ?_, hw.inv, ?_, ?_, hw.endian_eq.trans hg.endian_eq,
    hw.baseSize_eq.trans hg.baseSize_eq, ?_⟩
  · rw [socketRead, bind_ok hbuf, bind_ok hfill]
    simp only [hrt, hnat, if_pos hmove, getPosition]
    rw [← hpos] at hset
    rw [bind_ok (show (get : Op ByteArray) u = .ok u u from rfl), bind_ok hset]
    rfl
  · rw [hw.position_eq, hg.position_eq]
  · rw [hw.size_eq, hg.position_eq, hg.size_eq]
  · rw [hw.content_eq, hg.content_eq, hg.position_eq]

theorem Wrote.none {s : ByteArray} (h : Inv s) : Wrote s [] s where
  inv := h
  position_eq := rfl
  size_eq := (Nat.max_eq_left h.position_le).symm
  endian_eq := rfl
  baseSize_eq := rfl
  content_eq := (overwrite_nil _ _).symm

theorem readFixLoop_wrote (length : ℕ) (chunks : List Chunk) (left : ℕ) (hleft : left < 2^53)
    (hp : Pass left (chunks.map fun c => c.bytes.length)) (s : ByteArray) (h : Inv s) :
    ∃ t, readFixLoop length (chunks.map fun c => .moved c.bytes) left s =
        .ok (some (toInt length)) t ∧ Wrote s (chunks.flatMap Chunk.bytes) t := by
  induction chunks generalizing left s with
  | nil =>
    obtain rfl : left = 0 := hp
    exact ⟨s, rfl, Wrote.none h⟩
  | cons chunk chunks ih =>
    have hle : chunk.bytes.length ≤ left := hp.1
    have hpos := chunk.nonempty
    obtain ⟨t, hread, hw⟩ := socketRead_wrote s h left hleft chunk hle
    obtain ⟨u, hloop, hwu⟩ := ih (left-chunk.bytes.length) (by omega) hp.2 t hw.inv
    rw [Int.natCast_sub hle] at hloop
    refine ⟨u, ?_, Wrote.trans h hw hwu⟩
    rw [List.map_cons, readFixLoop, if_neg (by omega), Int.toNat_natCast, bind_ok hread,
      if_neg (by omega)]
    exact hloop

theorem moved_eq_advance (s : ByteArray) (k : ℕ) (hk : s.position+k ≤ s.size) :
    s.moved (s.position+k) = s.advance k := by
  rw [moved, advance, Nat.max_eq_left hk]

/-- One `SocketStream::write` that sends some of the unread bytes. -/
theorem socketWrite_sent (s : ByteArray) (h : Inv s) (length : ℕ) (hl : length ≤ s.getReadSize)
    (c : Count) (hle : c.count ≤ length) :
    socketWrite length (.moved c.count) s =
      .ok ((c.count : ℤ), s.unread.take c.count) (s.advance c.count) := by
  have hsc := h.size_le
  have hsize := h.advance_le (le_trans hle hl)
  obtain ⟨iovs, hbuf, ht⟩ := getReadBuffers_ok s h length
  have hload := h.load_segment (cut_tiles _ _ _ _ c.count ht (by omega)) (by omega)
  rw [Nat.add_sub_cancel_left, h.segment_unread _ (le_trans hle hl)] at hload
  obtain ⟨hset, -⟩ := setPosition_ok s h (s.position+c.count) (by omega)
  rw [moved_eq_advance s _ hsize] at hset
  have hrt := toInt_transfer _ c.count_le
  have hnat : (c.count : ℤ).toNat = c.count := Int.toNat_natCast _
  have hmove : (0 : ℤ) < c.count := by
    have := c.pos
    omega
  rw [socketWrite, bind_ok ((observe_eq_ok _ _ _).mpr hbuf),
    bind_ok ((observe_eq_ok _ _ _).mpr hload)]
  simp only [hrt, hnat, if_pos hmove, getPosition]
  rw [bind_ok (show (get : Op ByteArray) s = .ok s s from rfl), bind_ok hset]
  rfl

theorem writeFixLoop_sent (length : ℕ) (counts : List Count) (left : ℕ) (wire : Bytes)
    (hp : Pass left (counts.map Count.count)) (s : ByteArray) (h : Inv s)
    (hleft : left ≤ s.getReadSize) :
    writeFixLoop length (counts.map fun c => .moved c.count) left wire s =
      .ok (some (toInt length), wire ++ s.unread.take left) (s.advance left) := by
  induction counts generalizing left wire s with
  | nil =>
    obtain rfl : left = 0 := hp
    rw [advance_zero s h, List.take_zero, List.append_nil]
    rfl
  | cons c counts ih =>
    have hle : c.count ≤ left := hp.1
    have hpos := c.pos
    have hi := advance_inv s h c.count (h.advance_le (le_trans hle hleft))
    have hsz : (s.advance c.count).getReadSize = s.getReadSize-c.count := by
      simp only [getReadSize, advance]
      omega
    have hloop := ih (left-c.count) (wire ++ s.unread.take c.count) hp.2 _ hi (by omega)
    rw [Int.natCast_sub hle, advance_advance, Nat.add_sub_of_le hle, advance_unread,
      List.append_assoc, ← List.take_add, Nat.add_sub_of_le hle] at hloop
    rw [List.map_cons, writeFixLoop, if_neg (by omega), Int.toNat_natCast,
      bind_ok (socketWrite_sent s h left hleft c hle)]
    simp only
    rw [if_neg (by omega)]
    exact hloop

theorem pass_length (chunks : List Chunk) (left : ℕ)
    (hp : Pass left (chunks.map fun c => c.bytes.length)) :
    (chunks.flatMap Chunk.bytes).length = left := by
  induction chunks generalizing left with
  | nil => exact (show left = 0 from hp).symm
  | cons chunk chunks ih =>
    rw [List.flatMap_cons, List.length_append, ih _ hp.2, Nat.add_sub_of_le hp.1]

section Runs

variable (maxString b : ℕ) (hb : 1 ≤ b) (raw : ℕ → ℕ → UInt8) (calls : List Call)
  (hsz : ∀ c ∈ calls, c.demand < 2^53) (t : ByteArray)
  (ht : after maxString calls (create raw b) = some t)
include hb hsz ht

/-- In every reachable state, and however the socket cuts the transfers: `readFixSize`
puts the `n` received bytes at the cursor, and `writeFixSize` sends the next `n` unread
bytes and leaves the content as it is. -/
theorem fragmentation_independent (n : ℕ) (hn : n < 2^53) :
    (∀ chunks : List Chunk, Pass n (chunks.map fun c => c.bytes.length) →
      (chunks.flatMap Chunk.bytes).length = n ∧
      ∃ u, readFixSize n (chunks.map fun c => .moved c.bytes) t = .ok (some (toInt n)) u ∧
        Inv u ∧ u.getPosition = t.getPosition+n ∧
        u.getSize = max t.getSize (t.getPosition+n) ∧
        u.content = overwrite t.content t.getPosition (chunks.flatMap Chunk.bytes)) ∧
    (n ≤ t.getReadSize → ∀ counts : List Count, Pass n (counts.map Count.count) →
      ∃ u, writeFixSize n (counts.map fun c => .moved c.count) t =
          .ok (some (toInt n), segment t.content t.getPosition n) u ∧
        Inv u ∧ u.getPosition = t.getPosition+n ∧ u.getSize = t.getSize ∧
        u.content = t.content) := by
  have h := (fresh_after_inv maxString b hb raw calls hsz t ht).1
  have h64 := toInt64_small n (by omega)
  constructor
  · intro chunks hp
    have hlen := pass_length chunks n hp
    obtain ⟨u, hu, hw⟩ := readFixLoop_wrote n chunks n hn hp t h
    have hpos := hw.position_eq
    have hsize := hw.size_eq
    rw [hlen] at hpos hsize
    exact ⟨hlen, u, by rw [readFixSize, h64, hu], hw.inv, hpos, hsize, hw.content_eq⟩
  · intro hle counts hp
    have hsent := writeFixLoop_sent n counts n [] hp t h hle
    refine ⟨t.advance n, ?_, advance_inv t h n (h.advance_le hle), rfl, rfl, rfl⟩
    rw [writeFixSize, h64, hsent]
    rfl

omit hb hsz ht in
theorem fragmentation_independent_blocks :
    ∃ t, after 100 [.write [1, 2, 3], .setPosition 1] (create (fun _ _ => 0) 2) = some t ∧
      (∃ u, readFixSize 5 [.moved [4, 5, 6], .moved [7, 8]] t = .ok (some 5) u ∧
        u.getPosition = 6 ∧ u.content = [1, 4, 5, 6, 7, 8]) ∧
      ∃ u, writeFixSize 2 [.moved 1, .moved 1] t = .ok (some 2, [2, 3]) u ∧
        u.content = [1, 2, 3] := by
  refine ⟨_, rfl, ?_, ?_⟩
  · obtain ⟨-, u, hu, -, hpos, -, hcontent⟩ := (fragmentation_independent 100 2 (by decide)
      (fun _ _ => 0) [.write [1, 2, 3], .setPosition 1] (by decide) _ rfl 5 (by decide)).1
      [⟨[4, 5, 6], by decide, by decide⟩, ⟨[7, 8], by decide, by decide⟩] (by decide)
    exact ⟨u, hu, hpos, hcontent⟩
  · obtain ⟨u, hu, -, -, -, hcontent⟩ := (fragmentation_independent 100 2 (by decide)
      (fun _ _ => 0) [.write [1, 2, 3], .setPosition 1] (by decide) _ rfl 2 (by decide)).2
      (by decide) [⟨1, by decide, by decide⟩, ⟨1, by decide, by decide⟩] (by decide)
    exact ⟨u, hu, hcontent⟩

end Runs

end Lamb.ByteArray
