import Lamb.ByteArraySafety

/-!
# Records of several parts

A string is written as a length prefix and a body, and read back as two reads; a
variable-length integer is read byte by byte. A reader that fails behind its first
part has moved the cursor, and a prefix that is too narrow for the length does not
describe the body behind it. The conditions under which records are well formed, and
under which their readers fail without a trace, are exact.
-/

set_option autoImplicit false

namespace Lamb.ByteArray
open Lamb.ByteString Lamb.Blocks Lamb.DoubleQuotient

theorem readBody_outcome (maxString len : ℕ) (u : ByteArray) (h : Inv u) :
    readBody maxString len u =
      if maxString < len then .error .lengthError u
      else if u.getReadSize < len then .error .outOfRange u
      else if len = 0 ∧ u.position = u.capacity then .error .nullDeref u
      else .ok (u.unread.take len) (u.advance len) := by
  unfold readBody
  by_cases hmax : maxString < len
  · rw [if_pos hmax, if_pos hmax]
    rfl
  rw [if_neg hmax, if_neg hmax]
  by_cases hshort : u.getReadSize < len
  · rw [if_pos hshort, read_short u len hshort]
  rw [if_neg hshort]
  by_cases h0 : len = 0
  · subst h0
    rw [read_zero u h, advance_zero u h]
    by_cases hend : u.position = u.capacity
    · rw [if_pos hend, if_pos ⟨rfl, hend⟩]
    · rw [if_neg hend, if_neg fun hc => hend hc.2]
      rfl
  · rw [if_neg fun hc => h0 hc.1, read_ok u h len (by omega) (by omega)]

section Atomic

def itemSize (e : Endian) (r : Bytes) : Kind → Option ℕ
  | .int32 => (decodeVarint 32 5 0 0 r).map Prod.snd
  | .uint32 => (decodeVarint 32 5 0 0 r).map Prod.snd
  | .int64 => (decodeVarint 64 10 0 0 r).map Prod.snd
  | .uint64 => (decodeVarint 64 10 0 0 r).map Prod.snd
  | kind => (storedLength e r kind).map fun x => x.2+x.1

def Compound : Kind → Prop
  | .int32 | .uint32 | .int64 | .uint64 => True
  | .stringF16 | .stringF32 | .stringF64 | .stringVint => True
  | _ => False

def Whole (s : ByteArray) (kind : Kind) : Prop :=
  ∃ n, itemSize s.endian s.unread kind = some n ∧ n ≤ s.getReadSize

structure Untouched (s t : ByteArray) : Prop where
  position_eq : t.position = s.position
  cur_eq : t.cur = s.cur
  size_eq : t.size = s.size
  content_eq : t.content = s.content

/-- A read that returns when the item is there, and else throws `out_of_range` and
leaves the array as it was. -/
def AtomicRead {α : Type} (whole : Prop) (s : ByteArray) : EStateM.Result Stop ByteArray α → Prop
  | .ok _ _ => whole
  | .error e t => ¬ whole ∧ e = .outOfRange ∧ Untouched s t

def firstStep : Kind → ℕ
  | .stringF16 => 2
  | .stringF32 => 4
  | .stringF64 => 8
  | _ => 1

/-- The states in which a compound reader is atomic: its first step already finds too
few bytes, or the item is there, is not longer than a string can be and is not an empty
string at the end of the capacity. -/
def AtomicState (maxString : ℕ) (s : ByteArray) (kind : Kind) : Prop :=
  s.getReadSize < firstStep kind ∨ Whole s kind ∧
    ∀ len k, storedLength s.endian s.unread kind = some (len, k) →
      len ≤ maxString ∧ ¬ (len = 0 ∧ s.getPosition+k = s.capacity)

variable {α β : Type} {s : ByteArray}

theorem atomicRead_map (whole : Prop) (op : Op α) (g : α → β) :
    AtomicRead whole s ((g <$> op) s) ↔ AtomicRead whole s (op s) := by
  simp only [Functor.map, EStateM.map]
  cases op s <;> rfl

theorem untouched_advance (k : ℕ) (h : Inv s) : Untouched s (s.advance k) ↔ k = 0 := by
  constructor
  · intro hu
    have hp : s.position+k = s.position := hu.position_eq
    omega
  · rintro rfl
    rw [advance_zero s h]
    exact ⟨rfl, rfl, rfl, rfl⟩

theorem decodeVarint_pos (w n i result : ℕ) (r : Bytes) (v k : ℕ)
    (hd : decodeVarint w (n+1) i result r = some (v, k)) : 0 < k := by
  cases r with
  | nil => cases hd
  | cons b r =>
    rw [decodeVarint] at hd
    split_ifs at hd
    · obtain ⟨-, rfl⟩ := Prod.mk.inj (Option.some.inj hd)
      exact Nat.one_pos
    · obtain ⟨x, -, hx⟩ := Option.map_eq_some_iff.mp hd
      obtain ⟨-, rfl⟩ := Prod.mk.inj hx
      exact Nat.succ_pos _

/-- A variable-length integer that is cut short is read up to the end of the data. -/
theorem readVarint_short (w n i result : ℕ) (s : ByteArray) (h : Inv s)
    (hd : decodeVarint w n i result s.unread = none) :
    readVarint w n i result s = .error .outOfRange (s.advance s.getReadSize) := by
  induction n generalizing i result s with
  | zero => cases hd
  | succ n ih =>
    have hl := h.unread_length
    have hbyte := readFuint8_decodes s h
    cases hr : s.unread with
    | nil =>
      rw [hr, List.length_nil] at hl
      rw [← hl, advance_zero s h]
      exact bind_error (bind_error (read_short s 1 (by omega)))
    | cons b r =>
      rw [hr] at hd hbyte
      rw [hr, List.length_cons] at hl
      rw [decodeVarint] at hd
      split_ifs at hd with hlt
      have hrest : decodeVarint w n (i+7) (result ||| ((b.toNat &&& 0x7F) <<< i) % 2^w)
          (s.advance 1).unread = none := by
        rw [advance_unread, hr, List.drop_one, List.tail_cons]
        exact Option.map_eq_none_iff.mp hd
      have hsize : 1+(s.advance 1).getReadSize = s.getReadSize := by
        have hx : (s.advance 1).getReadSize = s.size-(s.position+1) := rfl
        unfold getReadSize at hx hl ⊢
        omega
      have hi := advance_inv s h 1 (h.advance_le hbyte.1)
      have hih := ih (i+7) _ (s.advance 1) hi hrest
      rw [advance_advance, hsize] at hih
      rw [readVarint, bind_ok hbyte.2, if_neg hlt]
      exact hih

structure FirstRead (m : Op α) (d : Endian → Bytes → Option (α × ℕ)) (first : ℕ) : Prop where
  decodes : Decodes m d
  pos : ∀ s, Inv s → ∀ a k, d s.endian s.unread = some (a, k) → 0 < k ∧ first ≤ s.getReadSize
  short : ∀ s, Inv s → d s.endian s.unread = none →
    ∃ t, m s = .error .outOfRange t ∧ (Untouched s t ↔ s.getReadSize < first)

theorem firstRead_word (n : ℕ) (h0 : 0 < n) (g : ℕ → α) :
    FirstRead (readWord n >>= fun v => pure (g v))
      (fun e r => (decodeWord n e r).map fun x => (g x.1, x.2)) n where
  decodes := (readWord_decodes n h0).map g
  pos := by
    intro s h a k hd
    have hl := h.unread_length
    obtain ⟨x, hx, he⟩ := Option.map_eq_some_iff.mp hd
    obtain ⟨-, rfl⟩ := Prod.mk.inj he
    unfold decodeWord at hx
    split_ifs at hx with hn
    obtain rfl := Option.some.inj hx
    exact ⟨h0, by omega⟩
  short := by
    intro s h hd
    have hl := h.unread_length
    have hn := Option.map_eq_none_iff.mp hd
    unfold decodeWord at hn
    split_ifs at hn with hlt
    have hshort : s.getReadSize < n := by omega
    refine ⟨s, bind_error (bind_error (read_short s n hshort)), iff_of_true ?_ hshort⟩
    exact ⟨rfl, rfl, rfl, rfl⟩

theorem firstRead_varint (w n : ℕ) (g : ℕ → α) :
    FirstRead (readVarint w (n+1) 0 0 >>= fun v => pure (g v))
      (fun _ r => (decodeVarint w (n+1) 0 0 r).map fun x => (g x.1, x.2)) 1 where
  decodes := (readVarint_decodes w (n+1) 0 0).map g
  pos := by
    intro s h a k hd
    have hl := h.unread_length
    obtain ⟨x, hx, he⟩ := Option.map_eq_some_iff.mp hd
    obtain ⟨-, rfl⟩ := Prod.mk.inj he
    refine ⟨decodeVarint_pos w n 0 0 s.unread x.1 x.2 hx, ?_⟩
    rw [← hl]
    apply Nat.pos_of_ne_zero
    intro h0
    rw [List.length_eq_zero_iff.mp h0] at hx
    cases hx
  short := by
    intro s h hd
    refine ⟨_, bind_error (readVarint_short w (n+1) 0 0 s h (Option.map_eq_none_iff.mp hd)), ?_⟩
    rw [untouched_advance _ h]
    omega

/-- An integer read is atomic exactly if its first step fails or it is all there. -/
theorem atomic_item_iff {m : Op α} {d : Endian → Bytes → Option (α × ℕ)} {first : ℕ}
    (hm : FirstRead m d first) (s : ByteArray) (h : Inv s) (stored : Option ℕ)
    (hst : (d s.endian s.unread).map Prod.snd = stored) :
    AtomicRead (∃ n, stored = some n ∧ n ≤ s.getReadSize) s (m s) ↔
      s.getReadSize < first ∨ ∃ n, stored = some n ∧ n ≤ s.getReadSize := by
  have hdec := hm.decodes s h
  subst hst
  cases hd : d s.endian s.unread with
  | none =>
    obtain ⟨t, ht, hiff⟩ := hm.short s h hd
    rw [ht]
    simp [AtomicRead, hiff]
  | some x =>
    rw [hd] at hdec
    rw [hdec.2]
    have hwhole : ∃ n, (some x).map Prod.snd = some n ∧ n ≤ s.getReadSize := ⟨x.2, rfl, hdec.1⟩
    exact iff_of_true hwhole (.inr hwhole)

/-- The second step of a string read, behind a prefix of `k` bytes. -/
theorem atomic_body_iff (maxString len k : ℕ) (s : ByteArray) (h : Inv s) (hk : 0 < k)
    (hle : k ≤ s.getReadSize) :
    AtomicRead (k+len ≤ s.getReadSize) s (readBody maxString len (s.advance k)) ↔
      k+len ≤ s.getReadSize ∧ len ≤ maxString ∧ ¬ (len = 0 ∧ s.getPosition+k = s.capacity) := by
  have hi := advance_inv s h k (h.advance_le hle)
  have hmoved : ¬ Untouched s (s.advance k) := by
    rw [untouched_advance k h]
    omega
  have hsize : (s.advance k).getReadSize = s.getReadSize-k := by
    simp only [getReadSize, advance]
    omega
  rw [readBody_outcome maxString len _ hi, hsize]
  by_cases hmax : maxString < len
  · rw [if_pos hmax]
    refine iff_of_false ?_ fun hc => absurd hc.2.1 (Nat.not_le.mpr hmax)
    rintro ⟨-, he, -⟩
    cases he
  rw [if_neg hmax]
  by_cases hshort : s.getReadSize-k < len
  · rw [if_pos hshort]
    exact iff_of_false (fun hc => hmoved hc.2.2) fun hc =>
      absurd (Nat.le_sub_of_add_le' hc.1) (Nat.not_le.mpr hshort)
  rw [if_neg hshort]
  by_cases hend : len = 0 ∧ (s.advance k).position = (s.advance k).capacity
  · rw [if_pos hend]
    refine iff_of_false ?_ fun hc => hc.2.2 hend
    rintro ⟨-, he, -⟩
    cases he
  · rw [if_neg hend]
    have hn : k+len ≤ s.getReadSize := by omega
    exact iff_of_true hn ⟨hn, Nat.not_lt.mp hmax, hend⟩

/-- A string read is atomic exactly if its first step fails, or the body is all there
and its length is one that the second step takes. -/
theorem atomic_string_iff {m : Op α} {d : Endian → Bytes → Option (α × ℕ)} {first : ℕ}
    (hm : FirstRead m d first) (g : α → ℕ) (maxString : ℕ) (s : ByteArray) (h : Inv s)
    (stored : Option (ℕ × ℕ))
    (hst : (d s.endian s.unread).map (fun x => (g x.1, x.2)) = stored) :
    AtomicRead (∃ n, stored.map (fun x => x.2+x.1) = some n ∧ n ≤ s.getReadSize) s
        ((m >>= fun len => readBody maxString (g len)) s) ↔
      s.getReadSize < first ∨
        (∃ n, stored.map (fun x => x.2+x.1) = some n ∧ n ≤ s.getReadSize) ∧
        ∀ len k, stored = some (len, k) →
          len ≤ maxString ∧ ¬ (len = 0 ∧ s.getPosition+k = s.capacity) := by
  have hdec := hm.decodes s h
  subst hst
  cases hd : d s.endian s.unread with
  | none =>
    obtain ⟨t, ht, hiff⟩ := hm.short s h hd
    rw [bind_error ht]
    simp [AtomicRead, hiff]
  | some x =>
    obtain ⟨a, k⟩ := x
    rw [hd] at hdec
    obtain ⟨hle, hok⟩ := hdec
    obtain ⟨hk, hfirst⟩ := hm.pos s h a k hd
    have hall : (∀ len j, (g a, k) = (len, j) →
        len ≤ maxString ∧ ¬ (len = 0 ∧ s.getPosition+j = s.capacity)) ↔
        g a ≤ maxString ∧ ¬ (g a = 0 ∧ s.getPosition+k = s.capacity) := by
      constructor
      · intro hc
        exact hc _ _ rfl
      · intro hc len j he
        obtain ⟨rfl, rfl⟩ := Prod.mk.inj he
        exact hc
    rw [bind_ok hok]
    simp only [Option.map_some, Option.some.injEq, exists_eq_left', Nat.not_lt.mpr hfirst,
      false_or, hall]
    exact atomic_body_iff maxString (g a) k s h hk hle

theorem atomicState_integer (maxString : ℕ) (s : ByteArray) {kind : Kind}
    (hno : storedLength s.endian s.unread kind = none) :
    AtomicState maxString s kind ↔ s.getReadSize < firstStep kind ∨ Whole s kind := by
  unfold AtomicState
  simp [hno]

theorem atomic_take_iff (maxString : ℕ) (s : ByteArray) (h : Inv s) (kind : Kind)
    (hkind : Compound kind) :
    AtomicRead (Whole s kind) s (take maxString kind s) ↔ AtomicState maxString s kind := by
  cases kind with
  | int32 =>
    rw [take, atomicRead_map, readInt32, ← map_eq_bind, atomicRead_map,
      atomicState_integer maxString s rfl]
    exact atomic_item_iff (firstRead_varint 32 4 UInt32.ofNat) s h
      (itemSize s.endian s.unread .int32) (Option.map_map _ _ _)
  | uint32 =>
    rw [take, atomicRead_map, atomicState_integer maxString s rfl]
    exact atomic_item_iff (firstRead_varint 32 4 UInt32.ofNat) s h
      (itemSize s.endian s.unread .uint32) (Option.map_map _ _ _)
  | int64 =>
    rw [take, atomicRead_map, readInt64, ← map_eq_bind, atomicRead_map,
      atomicState_integer maxString s rfl]
    exact atomic_item_iff (firstRead_varint 64 9 UInt64.ofNat) s h
      (itemSize s.endian s.unread .int64) (Option.map_map _ _ _)
  | uint64 =>
    rw [take, atomicRead_map, atomicState_integer maxString s rfl]
    exact atomic_item_iff (firstRead_varint 64 9 UInt64.ofNat) s h
      (itemSize s.endian s.unread .uint64) (Option.map_map _ _ _)
  | stringF16 =>
    rw [take, atomicRead_map]
    exact atomic_string_iff (firstRead_word 2 (by decide) UInt16.ofNat) UInt16.toNat maxString s h
      (storedLength s.endian s.unread .stringF16) (Option.map_map _ _ _)
  | stringF32 =>
    rw [take, atomicRead_map]
    exact atomic_string_iff (firstRead_word 4 (by decide) UInt32.ofNat) UInt32.toNat maxString s h
      (storedLength s.endian s.unread .stringF32) (Option.map_map _ _ _)
  | stringF64 =>
    rw [take, atomicRead_map]
    exact atomic_string_iff (firstRead_word 8 (by decide) UInt64.ofNat) UInt64.toNat maxString s h
      (storedLength s.endian s.unread .stringF64) (Option.map_map _ _ _)
  | stringVint =>
    rw [take, atomicRead_map]
    exact atomic_string_iff (firstRead_varint 64 9 UInt64.ofNat) UInt64.toNat maxString s h
      (storedLength s.endian s.unread .stringVint) (Option.map_map _ _ _)
  | _ => exact absurd hkind id

end Atomic

section Written

/-- What writing the string `value` behind a prefix of `w` bytes is to do: put a record
whose prefix is the number of bytes behind it, so that the reader, from where the record
starts, returns the string and stops at its end; or report an error and do nothing. -/
def WellFormedRecord (w : ℕ) (value : Bytes) (reader : Op Bytes) (s : ByteArray) :
    EStateM.Result Stop ByteArray Unit → Prop
  | .ok _ t =>
    (∃ head, head.length = w ∧ wordValue s.endian w head = value.length ∧
      t.content = overwrite s.content s.getPosition (head ++ value)) ∧
    ∃ u, (do setPosition s.getPosition; reader) t = .ok value u ∧
      u.getPosition = s.getPosition+w+value.length
  | .error e t => (e = .outOfRange ∨ e = .lengthError) ∧ Untouched s t

/-- The strings whose record is well formed: the length fits the prefix, and an empty
string does not end up at the end of the capacity. -/
def RecordFits (w : ℕ) (value : Bytes) (s : ByteArray) : Prop :=
  value.length < 256^w ∧
    ¬ (value = [] ∧ s.capacity ≤ s.getPosition+w ∧ (s.getPosition+w) % s.baseSize = 0)

theorem wordValue_lt (e : Endian) (w : ℕ) (bytes : Bytes) (hl : bytes.length = w) :
    wordValue e w bytes < 256^w := by
  unfold wordValue
  split_ifs
  · rw [← hl]
    exact leValue_lt bytes
  · exact byteswap_lt w _

/-- Growing leaves no room exactly if there was none to spare and the blocks end there. -/
theorem addCapacity_exact (s : ByteArray) (h : Inv s) (size : ℕ) (h0 : 0 < size)
    (hsz : size < 2^53) :
    (s.addCapacity size).capacity = s.position+size ↔
      s.capacity ≤ s.position+size ∧ (s.position+size) % s.baseSize = 0 := by
  have hb := h.base_pos
  have hc := h.capacity_eq
  have hpc := le_trans h.position_le h.size_le
  unfold addCapacity getCapacity
  rw [if_neg (Nat.ne_of_gt h0)]
  by_cases hfit : size ≤ s.capacity-s.position
  · rw [if_pos hfit]
    constructor
    · intro he
      rw [← he, hc, Nat.mul_mod_left]
      exact ⟨le_refl _, rfl⟩
    · rintro ⟨hle, -⟩
      omega
  · rw [if_neg hfit]
    simp only
    have hsum : s.position+size = s.capacity+(size-(s.capacity-s.position)) := by omega
    rw [hsum, Nat.add_left_cancel_iff, ceilQuotient_eq _ _ hb (by omega)]
    generalize size-(s.capacity-s.position) = need at *
    rw [hc, Nat.mul_add_mod']
    constructor
    · intro he
      rw [← he, Nat.mul_mod_left]
      exact ⟨by omega, rfl⟩
    · rintro ⟨-, hmod⟩
      obtain ⟨k, rfl⟩ := Nat.dvd_of_mod_eq_zero hmod
      rw [Nat.add_sub_assoc hb, Nat.mul_comm s.baseSize k, Nat.add_comm,
        Nat.add_mul_div_right _ _ hb, Nat.div_eq_of_lt (by omega), Nat.zero_add]

theorem write_capacity (s t : ByteArray) (buf : Bytes) (h0 : buf ≠ [])
    (hok : write buf s = .ok () t) : t.capacity = (s.addCapacity buf.length).capacity := by
  have hne : buf.length ≠ 0 := fun h => h0 (List.length_eq_zero_iff.mp h)
  simp only [write, if_neg hne] at hok
  split at hok
  · cases hok
  · split at hok
    · cases hok
    · cases hok
      rfl

theorem writeString_wrote (s : ByteArray) (h : Inv s) (size value : Bytes) (m : Op Unit)
    (hm : m s = write size s) (h0 : size ≠ []) (hsize : size.length < 2^53)
    (hvalue : value.length < 2^53) :
    ∃ t, (m >>= fun _ => write value) s = .ok () t ∧ Wrote s (size ++ value) t ∧
      (value = [] → (t.capacity = s.position+size.length ↔
        s.capacity ≤ s.position+size.length ∧ (s.position+size.length) % s.baseSize = 0)) := by
  obtain ⟨u, hu, hw⟩ := write_ok s h size hsize
  obtain ⟨t, ht, hw'⟩ := write_ok u hw.inv value hvalue
  refine ⟨t, by rw [bind_ok (hm.trans hu), ht], Wrote.trans h hw hw', ?_⟩
  rintro rfl
  obtain rfl : u = t := (EStateM.Result.ok.inj ht).2
  rw [write_capacity s u size h0 hu]
  exact addCapacity_exact s h size.length (List.length_pos_iff.mpr h0) hsize

theorem moved_content (s : ByteArray) (v : ℕ) (hv : v ≤ s.size) :
    (s.moved v).content = s.content := by
  rw [content, content, moved, Nat.max_eq_left hv]

/-- What the array shows from the start of bytes that were just written. -/
theorem Wrote.read_back {s t : ByteArray} {buf : Bytes} (h : Inv s) (hw : Wrote s buf t) :
    ∃ u, setPosition s.position t = .ok () u ∧ Inv u ∧ u.position = s.position ∧
      u.endian = s.endian ∧ u.capacity = t.capacity ∧ ∃ rest, u.unread = buf ++ rest := by
  have hp := h.position_le
  have hi := hw.inv
  have hpos := hw.size_eq
  have hcap := hi.size_le
  obtain ⟨hset, hinv⟩ := setPosition_ok t hi s.position (by omega)
  refine ⟨t.moved s.position, hset, hinv, rfl, hw.endian_eq, rfl, ?_⟩
  have hl : (s.content.take s.position).length = s.position := by
    rw [List.length_take, h.content_length]
    omega
  refine ⟨s.content.drop (s.position+buf.length), ?_⟩
  have hcontent : (t.moved s.position).content = overwrite s.content s.position buf := by
    rw [moved_content t _ (by omega), hw.content_eq]
  rw [unread, hcontent, overwrite, List.append_assoc, show (t.moved s.position).position =
    (s.content.take s.position).length by rw [hl]; rfl, List.drop_left]

variable {α : Type}

/-- The reader of a record that was just written returns the string, if it is not an
empty one at the end of the capacity. -/
theorem record_read_back (s t : ByteArray) (h : Inv s) (size value : Bytes)
    (hw : Wrote s (size ++ value) t) (m : Op α) (d : Endian → Bytes → Option (α × ℕ))
    (hd : Decodes m d) (g : α → ℕ) (maxString : ℕ) (len : α) (hlen : g len = value.length)
    (hmax : value.length ≤ maxString)
    (hsize : ∀ rest, d s.endian (size ++ rest) = some (len, size.length)) :
    (∃ u, (do setPosition s.getPosition; m >>= fun len => readBody maxString (g len)) t =
        .ok value u ∧ u.getPosition = s.getPosition+size.length+value.length) ↔
      ¬ (value = [] ∧ t.capacity = s.position+size.length) := by
  obtain ⟨r, hset, hi, hpos, hend, hcap, rest, hun⟩ := hw.read_back h
  have hr := hd r hi
  rw [hend, hun, List.append_assoc, hsize] at hr
  obtain ⟨hle, hok⟩ := hr
  have hl := hi.unread_length
  rw [hun, List.length_append, List.length_append] at hl
  have hia := advance_inv r hi size.length (hi.advance_le hle)
  have hsz : (r.advance size.length).getReadSize = r.getReadSize-size.length := by
    simp only [getReadSize, advance]
    omega
  have hrun : (do setPosition s.getPosition; m >>= fun len => readBody maxString (g len)) t =
      readBody maxString value.length (r.advance size.length) := by
    rw [show s.getPosition = s.position from rfl, bind_ok hset, bind_ok hok, hlen]
  have hat : (r.advance size.length).position = s.position+size.length := by
    rw [← hpos]
    rfl
  rw [hrun, readBody_outcome _ _ _ hia, if_neg (Nat.not_lt.mpr hmax), hsz,
    if_neg (by omega), hat, show (r.advance size.length).capacity = t.capacity from hcap]
  by_cases hempty : value = [] ∧ t.capacity = s.position+size.length
  · obtain ⟨rfl, he⟩ := hempty
    rw [if_pos ⟨rfl, he.symm⟩]
    refine iff_of_false ?_ fun hno => hno ⟨rfl, he⟩
    rintro ⟨u, hu, -⟩
    cases hu
  · rw [if_neg fun hc => hempty ⟨List.length_eq_zero_iff.mp hc.1, hc.2.symm⟩]
    refine iff_of_true ⟨(r.advance size.length).advance value.length, ?_, ?_⟩ hempty
    · rw [advance_unread, hun, List.append_assoc, List.drop_left, List.take_left]
    · rw [getPosition, advance, hat]
      rfl

theorem record_iff (s : ByteArray) (h : Inv s) (w n : ℕ) (h0 : 0 < w) (hw8 : w ≤ 8)
    (value : Bytes) (hn : n = value.length % 256^w) (writer : Op Unit)
    (hwriter : writer s = writeWord w n s) (hmem : value.length < 2^53) (maxString : ℕ)
    (hmax : value.length ≤ maxString) (ofNat : ℕ → α) (toNat : α → ℕ)
    (hof : toNat (ofNat n) = n) :
    WellFormedRecord w value
        ((readWord w >>= fun v => pure (ofNat v)) >>= fun len => readBody maxString (toNat len)) s
        ((writer >>= fun _ => write value) s) ↔ RecordFits w value s := by
  have hpow : 0 < 256^w := Nat.pow_pos (by decide)
  have hlt : n < 256^w := by
    rw [hn]
    exact Nat.mod_lt _ hpow
  have hl := wordBytes_length s.endian w n
  obtain ⟨t, ht, hw, hcap⟩ := writeString_wrote s h (wordBytes s.endian w n) value writer hwriter
    (List.length_pos_iff.mp (by omega)) (wordBytes_small _ _ _ hw8) hmem
  rw [hl] at hcap
  rw [ht]
  have hback : value.length < 256^w → ((∃ u, (do
      setPosition s.getPosition
      (readWord w >>= fun v => pure (ofNat v)) >>= fun len => readBody maxString (toNat len)) t =
        .ok value u ∧ u.getPosition = s.getPosition+w+value.length) ↔
      ¬ (value = [] ∧ t.capacity = s.position+w)) := by
    intro hfits
    have hnv : n = value.length := hn.trans (Nat.mod_eq_of_lt hfits)
    have hread := record_read_back s t h (wordBytes s.endian w n) value hw _ _
      ((readWord_decodes w h0).map ofNat) toNat maxString (ofNat n) (hof.trans hnv) hmax (by
        intro rest
        rw [decodeWord_wordBytes _ _ _ hlt, hl]
        rfl)
    rw [hl] at hread
    exact hread
  constructor
  · rintro ⟨⟨head, hhead, hval, -⟩, hread⟩
    have hfits : value.length < 256^w := by
      rw [← hval]
      exact wordValue_lt _ _ _ hhead
    have hno := (hback hfits).mp hread
    refine ⟨hfits, ?_⟩
    rintro ⟨he, hc⟩
    exact hno ⟨he, (hcap he).mpr hc⟩
  · rintro ⟨hfits, hno⟩
    have hnv : n = value.length := hn.trans (Nat.mod_eq_of_lt hfits)
    refine ⟨⟨wordBytes s.endian w n, hl, ?_, hw.content_eq⟩, (hback hfits).mpr ?_⟩
    · have hdec := decodeWord_wordBytes s.endian w n hlt []
      rw [List.append_nil, decodeWord, hl, if_neg (Nat.lt_irrefl w),
        List.take_of_length_le (le_of_eq hl)] at hdec
      rw [← hnv]
      exact (Prod.mk.inj (Option.some.inj hdec)).1
    · rintro ⟨he, hc⟩
      exact hno ⟨he, (hcap he).mp hc⟩

end Written

theorem stringF16_iff (s : ByteArray) (h : Inv s) (value : Bytes) (maxString : ℕ)
    (hmax : value.length ≤ maxString) (hmem : value.length < 2^53) :
    WellFormedRecord 2 value (readStringF16 maxString) s (writeStringF16 value s) ↔
      RecordFits 2 value s := by
  have hn : (UInt16.ofNat value.length).toNat = value.length % 256^2 := UInt16.toNat_ofNat'
  exact record_iff s h 2 _ (by decide) (by decide) value hn
    (writeFuint16 (UInt16.ofNat value.length)) rfl hmem maxString hmax UInt16.ofNat UInt16.toNat
    (by rw [UInt16.ofNat_toNat])

theorem stringF32_iff (s : ByteArray) (h : Inv s) (value : Bytes) (maxString : ℕ)
    (hmax : value.length ≤ maxString) (hmem : value.length < 2^53) :
    WellFormedRecord 4 value (readStringF32 maxString) s (writeStringF32 value s) ↔
      RecordFits 4 value s := by
  have hn : (UInt32.ofNat value.length).toNat = value.length % 256^4 := UInt32.toNat_ofNat'
  exact record_iff s h 4 _ (by decide) (by decide) value hn
    (writeFuint32 (UInt32.ofNat value.length)) rfl hmem maxString hmax UInt32.ofNat UInt32.toNat
    (by rw [UInt32.ofNat_toNat])

section Runs

variable (maxString b : ℕ) (hb : 1 ≤ b) (raw : ℕ → ℕ → UInt8) (calls : List Call)
  (hsz : ∀ c ∈ calls, c.demand < 2^53) (t : ByteArray)
  (ht : after maxString calls (create raw b) = some t)
include hb hsz ht

/-- In every reachable state the records that `writeStringF16` and `writeStringF32` make
are well formed for exactly the strings that fit. The string is one that exists and lies
in memory. -/
theorem string_record_iff (value : Bytes) (hmax : value.length ≤ maxString)
    (hmem : value.length < 2^53) :
    (WellFormedRecord 2 value (readStringF16 maxString) t (writeStringF16 value t) ↔
        RecordFits 2 value t) ∧
      (WellFormedRecord 4 value (readStringF32 maxString) t (writeStringF32 value t) ↔
        RecordFits 4 value t) := by
  have h := (fresh_after_inv maxString b hb raw calls hsz t ht).1
  exact ⟨stringF16_iff t h value maxString hmax hmem, stringF32_iff t h value maxString hmax hmem⟩

omit hb hsz ht in
theorem string_record_short :
    ∃ t, after 100 [.write [1, 2, 3], .setPosition 1] (create (fun _ _ => 0) 4) = some t ∧
      WellFormedRecord 2 [104, 105] (readStringF16 100) t (writeStringF16 [104, 105] t) := by
  refine ⟨_, rfl, ?_⟩
  exact (string_record_iff 100 4 (by decide) (fun _ _ => 0) [.write [1, 2, 3], .setPosition 1]
    (by decide) _ rfl [104, 105] (by decide) (by decide)).1.mpr ⟨by decide, by decide⟩

omit hb hsz ht in
/-- A string of 65536 bytes gets the prefix zero. -/
theorem stringF16_prefix_wraps :
    ∃ t, after (2^20) [] (create (fun _ _ => 0) 4096) = some t ∧
      ¬ WellFormedRecord 2 (List.replicate 65536 97) (readStringF16 (2^20)) t
        (writeStringF16 (List.replicate 65536 97) t) := by
  refine ⟨_, rfl, ?_⟩
  have hl : (List.replicate 65536 (97 : UInt8)).length = 65536 := List.length_replicate
  rw [stringF16_iff _ (create_inv _ 4096 (by decide)) _ _ (by rw [hl]; decide)
    (by rw [hl]; decide)]
  rintro ⟨hfits, -⟩
  rw [hl] at hfits
  exact absurd hfits (by decide)

/-- In every reachable state a compound read is atomic exactly in the atomic states. -/
theorem compound_read_atomic_iff (kind : Kind) (hkind : Compound kind) :
    AtomicRead (Whole t kind) t (take maxString kind t) ↔ AtomicState maxString t kind :=
  atomic_take_iff maxString t (fresh_after_inv maxString b hb raw calls hsz t ht).1 kind hkind

omit hb hsz ht in
theorem compound_read_atomic_no_prefix :
    ∃ t, after 100 [.write [5], .setPosition 0] (create (fun _ _ => 0) 4) = some t ∧
      AtomicRead (Whole t .stringF16) t (take 100 .stringF16 t) := by
  refine ⟨_, rfl, ?_⟩
  exact (compound_read_atomic_iff 100 4 (by decide) (fun _ _ => 0) [.write [5], .setPosition 0]
    (by decide) _ rfl .stringF16 trivial).mpr (.inl (by decide))

omit hb hsz ht in
/-- A string of five bytes of which one is there: the prefix is gone after the failure. -/
theorem truncated_string_moves :
    ∃ t, after 100 [.write [0, 5, 97], .setPosition 0] (create (fun _ _ => 0) 4) = some t ∧
      take 100 .stringF16 t = .error .outOfRange (t.advance 2) ∧
      ¬ AtomicRead (Whole t .stringF16) t (take 100 .stringF16 t) := by
  refine ⟨_, rfl, rfl, ?_⟩
  rintro ⟨-, -, hu⟩
  exact absurd hu.position_eq (by decide)

end Runs

end Lamb.ByteArray
