import Lamb.ByteArrayInvariant

/-!
# Sequences of calls on a byte array

Every public operation is a call. A run goes on after a call that returns or
throws and ends with one whose behaviour is undefined. Typed reads are described
by pure decoders of the unread bytes, with one composition rule, so that each
reader needs one lemma. The representation invariant holds along every run.
-/

set_option autoImplicit false

namespace Lamb.ByteArray
open Lamb.ByteString Lamb.Blocks

section Outcomes

variable {α β : Type}

theorem bind_ok {m : Op α} {f : α → Op β} {s t : ByteArray} {a : α} (h : m s = .ok a t) :
    (m >>= f) s = f a t := by
  simp only [bind, EStateM.bind, h]

theorem bind_error {m : Op α} {f : α → Op β} {s t : ByteArray} {e : Stop}
    (h : m s = .error e t) : (m >>= f) s = .error e t := by
  simp only [bind, EStateM.bind, h]

theorem map_eq_bind (g : α → β) (m : Op α) : g <$> m = m >>= fun a => pure (g a) := by
  funext s
  simp only [Functor.map, EStateM.map, bind, EStateM.bind]
  cases m s <;> rfl

def settled : EStateM.Result Stop ByteArray α → Option ByteArray
  | .ok _ t => some t
  | .error .outOfRange t => some t
  | .error .lengthError t => some t
  | .error .nullDeref _ => none
  | .error .outOfBounds _ => none

def Kept (s t : ByteArray) : Prop := Inv t ∧ t.baseSize = s.baseSize

def Keeps (op : Op α) : Prop := ∀ s, Inv s → ∀ t, settled (op s) = some t → Kept s t

theorem Keeps.pure (a : α) : Keeps (Pure.pure a : Op α) := by
  intro s h t ht
  obtain rfl : s = t := Option.some.inj ht
  exact ⟨h, rfl⟩

theorem Keeps.throw (e : Stop) : Keeps (throw e : Op α) := by
  intro s h t ht
  cases e with
  | outOfRange => exact Option.some.inj ht ▸ ⟨h, rfl⟩
  | lengthError => exact Option.some.inj ht ▸ ⟨h, rfl⟩
  | nullDeref => cases ht
  | outOfBounds => cases ht

theorem Keeps.bind {m : Op α} {f : α → Op β} (hm : Keeps m) (hf : ∀ a, Keeps (f a)) :
    Keeps (m >>= f) := by
  intro s h t ht
  have hms := hm s h
  cases hr : m s with
  | ok a u =>
    rw [bind_ok hr] at ht
    rw [hr] at hms
    obtain ⟨hu, hbu⟩ := hms u rfl
    obtain ⟨hi, hbt⟩ := hf a u hu t ht
    exact ⟨hi, hbt.trans hbu⟩
  | error e u =>
    rw [bind_error hr] at ht
    rw [hr] at hms
    cases e with
    | outOfRange => exact hms t ht
    | lengthError => exact hms t ht
    | nullDeref => cases ht
    | outOfBounds => cases ht

theorem Keeps.map {m : Op α} (g : α → β) (hm : Keeps m) : Keeps (g <$> m) := by
  rw [map_eq_bind]
  exact hm.bind fun a => Keeps.pure (g a)

def Returns (op : Op α) : Prop := ∀ s, Inv s → ∃ a t, op s = .ok a t ∧ Kept s t

theorem Returns.keeps {op : Op α} (h : Returns op) : Keeps op := by
  intro s hs t ht
  obtain ⟨a, u, hop, hk⟩ := h s hs
  rw [hop] at ht
  exact Option.some.inj ht ▸ hk

theorem Returns.pure (a : α) : Returns (Pure.pure a : Op α) := fun s h => ⟨a, s, rfl, h, rfl⟩

theorem Returns.bind {m : Op α} {f : α → Op β} (hm : Returns m) (hf : ∀ a, Returns (f a)) :
    Returns (m >>= f) := by
  intro s h
  obtain ⟨a, t, ht, hi, hb⟩ := hm s h
  obtain ⟨c, u, hu, hiu, hbu⟩ := hf a t hi
  exact ⟨c, u, by rw [bind_ok ht, hu], hiu, hbu.trans hb⟩

end Outcomes

theorem returns_write (buf : Bytes) (hsz : buf.length < 2^53) : Returns (write buf) := by
  intro s h
  obtain ⟨t, ht, hw⟩ := write_ok s h buf hsz
  exact ⟨(), t, ht, hw.inv, hw.baseSize_eq⟩

theorem keeps_read (n : ℕ) : Keeps (read n) := by
  intro s h t ht
  by_cases hn : s.getReadSize < n
  · rw [read_short s n hn] at ht
    exact Option.some.inj ht ▸ ⟨h, rfl⟩
  by_cases h0 : n = 0
  · subst h0
    rw [read_zero s h] at ht
    split_ifs at ht with hc
    · cases ht
    · exact Option.some.inj ht ▸ ⟨h, rfl⟩
  · rw [read_ok s h n (by omega) (by omega)] at ht
    unfold getReadSize at hn
    have hp := h.position_le
    exact Option.some.inj ht ▸ ⟨advance_inv s h n (by omega), rfl⟩

theorem keeps_setPosition (v : ℕ) : Keeps (setPosition v) := by
  intro s h t ht
  by_cases hv : s.capacity < v
  · rw [setPosition_short s v hv] at ht
    exact Option.some.inj ht ▸ ⟨h, rfl⟩
  · obtain ⟨hok, hinv⟩ := setPosition_ok s h v (by omega)
    rw [hok] at ht
    exact Option.some.inj ht ▸ ⟨hinv, rfl⟩

theorem returns_clear : Returns clear := fun s h => ⟨(), s.cleared, rfl, cleared_inv s h, rfl⟩

theorem returns_setIsLittleEndian (val : Bool) : Returns (setIsLittleEndian val) :=
  fun _ h => ⟨(), _, rfl, ⟨h.base_pos, h.nodes_of, h.root, h.capacity_eq, h.position_le,
    h.size_le, h.cur_eq⟩, rfl⟩

theorem returns_getWriteBuffers (len : ℕ) (hsz : len < 2^53) : Returns (getWriteBuffers len) := by
  intro s h
  obtain ⟨spans, t, ht, hg, -, -⟩ := getWriteBuffers_ok s h len hsz
  exact ⟨_, t, ht, hg.inv, hg.baseSize_eq⟩

theorem returns_readChunks (fuel : ℕ) (file : Bytes) (hsz : file.length < 2^53) :
    Returns (readChunks fuel file) := by
  induction fuel generalizing file with
  | zero => exact Returns.pure ()
  | succ fuel ih =>
    intro s h
    have ht : (file.take s.baseSize).length < 2^53 :=
      lt_of_le_of_lt (List.length_take_le' _ _) hsz
    have hd : (file.drop s.baseSize).length < 2^53 := by
      rw [List.length_drop]
      omega
    refine (returns_write _ ht).bind (fun _ => ?_) s h
    split_ifs
    · exact Returns.pure ()
    · exact ih _ hd

theorem returns_readFromFile (file : Option Bytes) (hsz : ∀ b ∈ file, b.length < 2^53) :
    Returns (readFromFile file) := by
  cases file with
  | none => exact Returns.pure false
  | some b => exact (returns_readChunks _ b (hsz b rfl)).bind fun _ => Returns.pure true

section Writers

theorem returns_writeWord (n value : ℕ) (hn : n < 2^53) : Returns (writeWord n value) :=
  fun s h => returns_write _ (by rw [leBytes_length]; exact hn) s h

theorem varint_length_le (n value : ℕ) : (varint n value).length ≤ n := by
  induction n generalizing value with
  | zero => simp [varint]
  | succ n ih =>
    unfold varint
    split_ifs
    · simpa using ih _
    · simp

theorem returns_varint (n value : ℕ) (hn : n < 2^53) : Returns (write (varint n value)) :=
  returns_write _ (lt_of_le_of_lt (varint_length_le n value) hn)

def Item.text : Item → Bytes
  | .stringF16 v => v
  | .stringF32 v => v
  | .stringF64 v => v
  | .stringVint v => v
  | _ => []

theorem returns_put (item : Item) (hsz : item.text.length < 2^53) : Returns (put item) := by
  cases item with
  | fint8 v => exact returns_write [v.toUInt8] (by simp)
  | fuint8 v => exact returns_write [v] (by simp)
  | fint16 v => exact returns_writeWord 2 _ (by decide)
  | fuint16 v => exact returns_writeWord 2 _ (by decide)
  | fint32 v => exact returns_writeWord 4 _ (by decide)
  | fuint32 v => exact returns_writeWord 4 _ (by decide)
  | fint64 v => exact returns_writeWord 8 _ (by decide)
  | fuint64 v => exact returns_writeWord 8 _ (by decide)
  | int32 v => exact returns_varint 5 _ (by decide)
  | uint32 v => exact returns_varint 5 _ (by decide)
  | int64 v => exact returns_varint 10 _ (by decide)
  | uint64 v => exact returns_varint 10 _ (by decide)
  | float v => exact returns_writeWord 4 _ (by decide)
  | double v => exact returns_writeWord 8 _ (by decide)
  | stringF16 v => exact (returns_writeWord 2 _ (by decide)).bind fun _ => returns_write v hsz
  | stringF32 v => exact (returns_writeWord 4 _ (by decide)).bind fun _ => returns_write v hsz
  | stringF64 v => exact (returns_writeWord 8 _ (by decide)).bind fun _ => returns_write v hsz
  | stringVint v => exact (returns_varint 10 _ (by decide)).bind fun _ => returns_write v hsz

end Writers

section Readers

variable {α β : Type}

/-- The outcome that a pure decoder asks of a reader: on bytes that decode it
returns the value and moves past what it used, on others it throws. -/
def Decoded (s : ByteArray) (r : EStateM.Result Stop ByteArray α) : Option (α × ℕ) → Prop
  | some (a, k) => k ≤ s.getReadSize ∧ r = .ok a (s.advance k)
  | none => ∃ t, r = .error .outOfRange t ∧ Kept s t

def Decodes (op : Op α) (f : Endian → Bytes → Option (α × ℕ)) : Prop :=
  ∀ s, Inv s → Decoded s (op s) (f s.endian s.unread)

theorem Decodes.pure (a : α) : Decodes (Pure.pure a : Op α) fun _ _ => some (a, 0) :=
  fun s h => ⟨Nat.zero_le _, by rw [advance_zero s h]; rfl⟩

theorem Inv.advance_le {s : ByteArray} (h : Inv s) {k : ℕ} (hk : k ≤ s.getReadSize) :
    s.position+k ≤ s.size := by
  have hp := h.position_le
  unfold getReadSize at hk
  omega

theorem Decodes.bind {m : Op α} {f : α → Op β} {d : Endian → Bytes → Option (α × ℕ)}
    {g : α → Endian → Bytes → Option (β × ℕ)} (hm : Decodes m d)
    (hf : ∀ a, Decodes (f a) (g a)) :
    Decodes (m >>= f) fun e r =>
      (d e r).bind fun x => (g x.1 e (r.drop x.2)).map fun y => (y.1, x.2+y.2) := by
  intro s h
  have hms := hm s h
  beta_reduce
  cases hd : d s.endian s.unread with
  | none =>
    rw [hd] at hms
    obtain ⟨t, ht, hk⟩ := hms
    exact ⟨t, bind_error ht, hk⟩
  | some x =>
    obtain ⟨a, k⟩ := x
    rw [hd] at hms
    obtain ⟨hle, hok⟩ := hms
    have hfs := hf a (s.advance k) (advance_inv s h k (h.advance_le hle))
    rw [advance_unread, show (s.advance k).endian = s.endian from rfl] at hfs
    rw [Option.bind_some, bind_ok hok]
    cases hg : g a s.endian (s.unread.drop k) with
    | none =>
      rw [hg] at hfs
      exact hfs
    | some y =>
      obtain ⟨b, j⟩ := y
      rw [hg] at hfs
      obtain ⟨hj, hoj⟩ := hfs
      refine ⟨?_, by rw [hoj, advance_advance]⟩
      simp only [getReadSize, advance] at hj hle ⊢
      omega

theorem Decodes.map {m : Op α} {d : Endian → Bytes → Option (α × ℕ)} (hm : Decodes m d)
    (g : α → β) :
    Decodes (m >>= fun a => Pure.pure (g a)) fun e r => (d e r).map fun x => (g x.1, x.2) := by
  intro s h
  have hbs := hm.bind (fun a => Decodes.pure (g a)) s h
  beta_reduce at hbs ⊢
  cases hd : d s.endian s.unread with
  | none =>
    rw [hd] at hbs
    exact hbs
  | some x =>
    rw [hd] at hbs
    exact hbs

theorem Decodes.keeps {op : Op α} {f : Endian → Bytes → Option (α × ℕ)} (h : Decodes op f) :
    Keeps op := by
  intro s hs t ht
  have hop := h s hs
  cases hf : f s.endian s.unread with
  | none =>
    rw [hf] at hop
    obtain ⟨u, hu, hk⟩ := hop
    rw [hu] at ht
    exact Option.some.inj ht ▸ hk
  | some x =>
    rw [hf] at hop
    obtain ⟨hle, hok⟩ := hop
    rw [hok] at ht
    exact Option.some.inj ht ▸ ⟨advance_inv s hs _ (hs.advance_le hle), rfl⟩

def wordValue (e : Endian) (n : ℕ) (bytes : Bytes) : ℕ :=
  if e = byteOrder then leValue bytes else byteswap n (leValue bytes)

def decodeWord (n : ℕ) (e : Endian) (r : Bytes) : Option (ℕ × ℕ) :=
  if r.length < n then none else some (wordValue e n (r.take n), n)

def decodeByte (_ : Endian) : Bytes → Option (UInt8 × ℕ)
  | [] => none
  | b::_ => some (b, 1)

def decodeVarint (w : ℕ) : ℕ → ℕ → ℕ → Bytes → Option (ℕ × ℕ)
  | 0, _, result, _ => some (result, 0)
  | _+1, _, _, [] => none
  | n+1, i, result, b::r =>
    if b < 0x80 then some (result ||| (b.toNat <<< i) % 2^w, 1)
    else (decodeVarint w n (i+7) (result ||| ((b.toNat &&& 0x7F) <<< i) % 2^w) r).map
      fun x => (x.1, x.2+1)

theorem readWord_decodes (n : ℕ) (h0 : 0 < n) : Decodes (readWord n) (decodeWord n) := by
  intro s h
  have hl := h.unread_length
  unfold decodeWord
  split_ifs with hn
  · exact ⟨s, bind_error (read_short s n (by omega)), h, rfl⟩
  · exact ⟨by omega, bind_ok (read_ok s h n h0 (by omega))⟩

theorem readFuint8_decodes : Decodes readFuint8 decodeByte := by
  intro s h
  have hl := h.unread_length
  cases hr : s.unread with
  | nil =>
    rw [hr, List.length_nil] at hl
    exact ⟨s, bind_error (read_short s 1 (by omega)), h, rfl⟩
  | cons b r =>
    rw [hr, List.length_cons] at hl
    refine ⟨by omega, ?_⟩
    rw [readFuint8, bind_ok (read_ok s h 1 (by decide) (by omega)), hr]
    simp [leValue, pure, EStateM.pure]

theorem readVarint_decodes (w n i result : ℕ) :
    Decodes (readVarint w n i result) fun _ r => decodeVarint w n i result r := by
  induction n generalizing i result with
  | zero => exact Decodes.pure result
  | succ n ih =>
    have hstep : ∀ b : UInt8, Decodes
        (if b < 0x80 then Pure.pure (result ||| (b.toNat <<< i) % 2^w)
          else readVarint w n (i+7) (result ||| ((b.toNat &&& 0x7F) <<< i) % 2^w))
        (fun _ r => if b < 0x80 then some (result ||| (b.toNat <<< i) % 2^w, 0)
          else decodeVarint w n (i+7) (result ||| ((b.toNat &&& 0x7F) <<< i) % 2^w) r) := by
      intro b
      by_cases hlt : b < 0x80
      · simp only [if_pos hlt]
        exact Decodes.pure _
      · simp only [if_neg hlt]
        exact ih _ _
    intro s h
    have hbs := readFuint8_decodes.bind hstep s h
    beta_reduce at hbs ⊢
    cases hr : s.unread with
    | nil =>
      rw [hr] at hbs
      exact hbs
    | cons b r =>
      simp only [hr, decodeByte, Option.bind_some, List.drop_succ_cons, List.drop_zero] at hbs
      rw [decodeVarint]
      by_cases hlt : b < 0x80
      · simp only [if_pos hlt, Option.map_some, Nat.add_zero] at hbs ⊢
        exact hbs
      · simp only [if_neg hlt, Nat.add_comm 1] at hbs ⊢
        exact hbs

theorem keeps_take_word (n : ℕ) (h0 : 0 < n) (g : ℕ → α) (k : α → β) :
    Keeps (k <$> (readWord n >>= fun v => Pure.pure (g v))) :=
  Keeps.map k ((readWord_decodes n h0).map g).keeps

theorem keeps_readBody (maxString len : ℕ) : Keeps (readBody maxString len) := by
  unfold readBody
  split_ifs
  · exact Keeps.throw _
  · exact keeps_read len

theorem keeps_readString {m : Op α} (hm : Keeps m) (g : α → ℕ) (maxString : ℕ) :
    Keeps (m >>= fun len => readBody maxString (g len)) :=
  hm.bind fun _ => keeps_readBody _ _

theorem keeps_take (maxString : ℕ) (kind : Kind) : Keeps (take maxString kind) := by
  have h8 := readFuint8_decodes.keeps
  have h32 := ((readVarint_decodes 32 5 0 0).map UInt32.ofNat).keeps
  have h64 := ((readVarint_decodes 64 10 0 0).map UInt64.ofNat).keeps
  cases kind with
  | fint8 => exact Keeps.map _ (h8.bind fun v => Keeps.pure v.toInt8)
  | fuint8 => exact Keeps.map _ h8
  | fint16 => exact keeps_take_word 2 (by decide) _ _
  | fuint16 => exact keeps_take_word 2 (by decide) _ _
  | fint32 => exact keeps_take_word 4 (by decide) _ _
  | fuint32 => exact keeps_take_word 4 (by decide) _ _
  | fint64 => exact keeps_take_word 8 (by decide) _ _
  | fuint64 => exact keeps_take_word 8 (by decide) _ _
  | int32 => exact Keeps.map _ (h32.bind fun v => Keeps.pure (decodeZigzag32 v))
  | uint32 => exact Keeps.map _ h32
  | int64 => exact Keeps.map _ (h64.bind fun v => Keeps.pure (decodeZigzag64 v))
  | uint64 => exact Keeps.map _ h64
  | float => exact keeps_take_word 4 (by decide) _ _
  | double => exact keeps_take_word 8 (by decide) _ _
  | stringF16 =>
    exact Keeps.map _ (keeps_readString ((readWord_decodes 2 (by decide)).map _).keeps _ _)
  | stringF32 =>
    exact Keeps.map _ (keeps_readString ((readWord_decodes 4 (by decide)).map _).keeps _ _)
  | stringF64 =>
    exact Keeps.map _ (keeps_readString ((readWord_decodes 8 (by decide)).map _).keeps _ _)
  | stringVint => exact Keeps.map _ (keeps_readString h64 _ _)

end Readers

def observe {α : Type} (f : ByteArray → Except Stop α) : Op α := fun s =>
  match f s with
  | .ok a => .ok a s
  | .error e => .error e s

inductive Call where
  | write (buf : Bytes)
  | read (size : ℕ)
  | put (item : Item)
  | take (kind : Kind)
  | writeStringWithoutLength (value : Bytes)
  | setIsLittleEndian (val : Bool)
  | setPosition (v : ℕ)
  | clear
  | toString
  | getReadBuffers (len : ℕ)
  | getWriteBuffers (len : ℕ)
  | readFromFile (file : Option Bytes)

inductive Value where
  | unit
  | bytes (b : Bytes)
  | item (i : Item)
  | buffers (size : ℕ) (spans : List Span)
  | flag (b : Bool)
  deriving DecidableEq

def Call.run (maxString : ℕ) : Call → Op Value
  | .write buf => do ByteArray.write buf; pure .unit
  | .read size => Value.bytes <$> ByteArray.read size
  | .put item => do ByteArray.put item; pure .unit
  | .take kind => Value.item <$> ByteArray.take maxString kind
  | .writeStringWithoutLength value => do ByteArray.writeStringWithoutLength value; pure .unit
  | .setIsLittleEndian val => do ByteArray.setIsLittleEndian val; pure .unit
  | .setPosition v => do ByteArray.setPosition v; pure .unit
  | .clear => do ByteArray.clear; pure .unit
  | .toString => Value.bytes <$> observe ByteArray.toString
  | .getReadBuffers len =>
    (fun x => Value.buffers x.1 x.2) <$> observe fun s => ByteArray.getReadBuffers s len
  | .getWriteBuffers len =>
    (fun x => Value.buffers x.1 x.2) <$> ByteArray.getWriteBuffers len
  | .readFromFile file => Value.flag <$> ByteArray.readFromFile file

/-- The bytes of the largest buffer that a call hands over or asks for. -/
def Call.demand : Call → ℕ
  | .write buf => buf.length
  | .put item => item.text.length
  | .writeStringWithoutLength value => value.length
  | .getWriteBuffers len => len
  | .readFromFile (some bytes) => bytes.length
  | _ => 0

theorem keeps_observe {α : Type} (f : ByteArray → Except Stop α) : Keeps (observe f) := by
  intro s h t ht
  unfold observe at ht
  cases hf : f s with
  | ok a =>
    rw [hf] at ht
    exact Option.some.inj ht ▸ ⟨h, rfl⟩
  | error e =>
    rw [hf] at ht
    exact Keeps.throw (α := α) e s h t ht

theorem keeps_run (maxString : ℕ) (c : Call) (hsz : c.demand < 2^53) :
    Keeps (c.run maxString) := by
  cases c with
  | write buf => exact ((returns_write buf hsz).bind fun _ => Returns.pure _).keeps
  | read size => exact Keeps.map _ (keeps_read size)
  | put item => exact ((returns_put item hsz).bind fun _ => Returns.pure _).keeps
  | take kind => exact Keeps.map _ (keeps_take maxString kind)
  | writeStringWithoutLength value =>
    exact ((returns_write value hsz).bind fun _ => Returns.pure _).keeps
  | setIsLittleEndian val =>
    exact ((returns_setIsLittleEndian val).bind fun _ => Returns.pure _).keeps
  | setPosition v => exact (keeps_setPosition v).bind fun _ => Keeps.pure _
  | clear => exact (returns_clear.bind fun _ => Returns.pure _).keeps
  | toString => exact Keeps.map _ (keeps_observe _)
  | getReadBuffers len => exact Keeps.map _ (keeps_observe _)
  | getWriteBuffers len => exact Keeps.map _ (returns_getWriteBuffers len hsz).keeps
  | readFromFile file =>
    refine Keeps.map _ (returns_readFromFile file ?_).keeps
    intro b hb
    obtain rfl := Option.mem_def.mp hb
    exact hsz

/-- The array after a sequence of calls, each of which returned or threw. -/
def after (maxString : ℕ) (calls : List Call) (s : ByteArray) : Option ByteArray :=
  calls.foldlM (fun u c => settled (c.run maxString u)) s

theorem after_kept (maxString : ℕ) (calls : List Call) (hsz : ∀ c ∈ calls, c.demand < 2^53)
    (s t : ByteArray) (h : Inv s) (ht : after maxString calls s = some t) : Kept s t := by
  induction calls generalizing s with
  | nil =>
    obtain rfl : s = t := Option.some.inj ht
    exact ⟨h, rfl⟩
  | cons c calls ih =>
    obtain ⟨u, hu, hrest⟩ := Option.bind_eq_some_iff.mp (List.foldlM_cons.symm.trans ht)
    obtain ⟨hi, hb⟩ := keeps_run maxString c (hsz c (by simp)) s h u hu
    obtain ⟨hit, hbt⟩ := ih (fun d hd => hsz d (by simp [hd])) u hi hrest
    exact ⟨hit, hbt.trans hb⟩

theorem fresh_after_inv (maxString b : ℕ) (hb : 0 < b) (raw : ℕ → ℕ → UInt8) (calls : List Call)
    (hsz : ∀ c ∈ calls, c.demand < 2^53) (t : ByteArray)
    (ht : after maxString calls (create raw b) = some t) : Inv t ∧ t.baseSize = b :=
  after_kept maxString calls hsz _ t (create_inv raw b hb) ht

/-- The representation invariant along every run of calls, whatever each of them
returned or threw. -/
theorem representation_invariant (maxString b : ℕ) (hb : 1 ≤ b) (raw : ℕ → ℕ → UInt8)
    (calls : List Call) (hsz : ∀ c ∈ calls, c.demand < 2^53) (t : ByteArray)
    (ht : after maxString calls (create raw b) = some t) :
    t.baseSize = b ∧ (∀ n ∈ t.nodes, n.size = b) ∧ t.capacity = t.nodes.length*b ∧
      t.position ≤ t.size ∧ t.size ≤ t.capacity ∧
      (∀ i, t.cur = some i ↔ i = t.position / b ∧ t.position ≠ t.capacity) ∧
      (t.cur = none ↔ t.position = t.capacity) := by
  obtain ⟨h, hbase⟩ := fresh_after_inv maxString b hb raw calls hsz t ht
  have hc := h.capacity_eq
  have hcur := h.cur_eq
  rw [cursorAt, ← hc] at hcur
  rw [hbase] at hc hcur
  refine ⟨hbase, fun n hn => hbase ▸ (h.nodes_of n hn).1, hc, h.position_le, h.size_le, ?_, ?_⟩
  · intro i
    rw [hcur]
    split_ifs with he
    · simp [he]
    · simp [he, eq_comm]
  · rw [hcur]
    split_ifs with he <;> simp [he]

theorem representation_invariant_full_block :
    ∃ t, after 100 [.write [1, 2, 3], .put (.fuint8 7), .read 1, .setPosition 4]
        (create (fun _ _ => 0) 4) = some t ∧ t.size = 4 ∧ t.cur = none ∧
      t.position = t.capacity := by
  refine ⟨_, rfl, rfl, rfl, ?_⟩
  have h := representation_invariant 100 4 (by decide) (fun _ _ => 0)
    [.write [1, 2, 3], .put (.fuint8 7), .read 1, .setPosition 4] (by decide) _ rfl
  exact h.2.2.2.2.2.2.mp rfl

end Lamb.ByteArray
