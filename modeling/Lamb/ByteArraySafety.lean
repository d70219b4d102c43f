import Lamb.ByteArrayRoundTrip

/-!
# Memory safety of the byte array

In every reachable state the calls that leave the chain, or that fail in another
way than by `out_of_range`, are exactly these: a read of no bytes at the end of
the capacity, which follows the null cursor, and a string whose stored length is
zero there or is larger than a string can be.
-/

set_option autoImplicit false

namespace Lamb.ByteArray
open Lamb.ByteString Lamb.Blocks

/-- An operation that returned or threw `out_of_range`. -/
def Sound {α : Type} : EStateM.Result Stop ByteArray α → Prop
  | .ok _ _ => True
  | .error e _ => e = .outOfRange

/-- A call that returned or threw `out_of_range`. Spans that were handed out lie
inside one node each. -/
def Safe : EStateM.Result Stop ByteArray Value → Prop
  | .ok (.buffers _ spans) t =>
    ∀ sp ∈ spans, ∃ n, t.nodes[sp.node]? = some n ∧ sp.off+sp.len ≤ n.ptr.length
  | .ok _ _ => True
  | .error e _ => e = .outOfRange

def storedLength (e : Endian) (r : Bytes) : Kind → Option (ℕ × ℕ)
  | .stringF16 => (decodeWord 2 e r).map fun x => ((UInt16.ofNat x.1).toNat, x.2)
  | .stringF32 => (decodeWord 4 e r).map fun x => ((UInt32.ofNat x.1).toNat, x.2)
  | .stringF64 => (decodeWord 8 e r).map fun x => ((UInt64.ofNat x.1).toNat, x.2)
  | .stringVint => (decodeVarint 64 10 0 0 r).map fun x => ((UInt64.ofNat x.1).toNat, x.2)
  | _ => none

def Defective (maxString : ℕ) (s : ByteArray) : Call → Prop
  | .read n => n = 0 ∧ s.position = s.capacity
  | .take kind => ∃ len k, storedLength s.endian s.unread kind = some (len, k) ∧
      (maxString < len ∨ len = 0 ∧ s.position+k = s.capacity)
  | _ => False

theorem Tiles.inside {s : ByteArray} (h : Inv s) {spans : List Span} {p q : ℕ}
    (ht : Tiles s.baseSize spans p q) (hq : q ≤ s.capacity) :
    ∀ sp ∈ spans, ∃ n, s.nodes[sp.node]? = some n ∧ sp.off+sp.len ≤ n.ptr.length := by
  induction spans generalizing p with
  | nil => simp
  | cons sp rest ih =>
    obtain ⟨hp, hl, hfit, hrest⟩ := ht
    intro x hx
    rcases List.mem_cons.mp hx with rfl | hx
    · have hle := hrest.le
      have hc := h.capacity_eq
      have hk : x.node < s.nodes.length := by
        apply Nat.lt_of_mul_lt_mul_right (a := s.baseSize)
        omega
      exact ⟨s.nodes[x.node], List.getElem?_eq_getElem hk,
        by rw [(h.nodes_of _ (List.getElem_mem hk)).2]; exact hfit⟩
    · exact ih hrest x hx

section Readers

variable {α : Type} {s : ByteArray} (h : Inv s)

theorem safe_item_iff {β : Type} (op : Op β) (k : β → Item) (s : ByteArray) :
    Safe ((Value.item <$> k <$> op) s) ↔ Sound (op s) := by
  simp only [Functor.map, EStateM.map]
  cases op s <;> rfl

include h

theorem Decodes.sound {op : Op α} {d : Endian → Bytes → Option (α × ℕ)}
    (hop : Decodes op d) : Sound (op s) := by
  have hs := hop s h
  cases hd : d s.endian s.unread with
  | none =>
    rw [hd] at hs
    obtain ⟨t, ht, -⟩ := hs
    rw [ht]
    rfl
  | some x =>
    rw [hd] at hs
    rw [hs.2]
    trivial

theorem read_sound_iff (n : ℕ) :
    Sound (read n s) ↔ ¬(n = 0 ∧ s.position = s.capacity) := by
  by_cases h0 : n = 0
  · subst h0
    rw [read_zero s h]
    split_ifs with hc <;> simp [Sound, hc]
  · by_cases hn : s.getReadSize < n
    · rw [read_short s n hn]
      simp [Sound, h0]
    · rw [read_ok s h n (by omega) (by omega)]
      simp [Sound, h0]

/-- A string read goes wrong exactly on a stored length that is too large, or zero
with the cursor at the end of the capacity. -/
theorem readString_sound_iff {m : Op α} {d : Endian → Bytes → Option (α × ℕ)}
    (hm : Decodes m d) (g : α → ℕ) (maxString : ℕ) :
    Sound ((m >>= fun len => readBody maxString (g len)) s) ↔
      ¬∃ len w, (d s.endian s.unread).map (fun x => (g x.1, x.2)) = some (len, w) ∧
        (maxString < len ∨ len = 0 ∧ s.position+w = s.capacity) := by
  have hs := hm s h
  cases hd : d s.endian s.unread with
  | none =>
    rw [hd] at hs
    obtain ⟨t, ht, -⟩ := hs
    rw [bind_error ht]
    simp [Sound]
  | some x =>
    obtain ⟨a, w⟩ := x
    rw [hd] at hs
    obtain ⟨hle, hok⟩ := hs
    have hi := advance_inv s h w (h.advance_le hle)
    have hiff : (∃ len v, Option.map (fun x => (g x.1, x.2)) (some (a, w)) = some (len, v) ∧
        (maxString < len ∨ len = 0 ∧ s.position+v = s.capacity)) ↔
        (maxString < g a ∨ g a = 0 ∧ s.position+w = s.capacity) := by
      constructor
      · rintro ⟨len, v, he, hc⟩
        obtain ⟨rfl, rfl⟩ := Prod.mk.inj (Option.some.inj he)
        exact hc
      · intro hc
        exact ⟨g a, w, rfl, hc⟩
    rw [hiff, bind_ok hok, readBody]
    by_cases hbig : maxString < g a
    · rw [if_pos hbig]
      constructor
      · intro hsound
        have hstop : Stop.lengthError = .outOfRange := hsound
        cases hstop
      · intro hno
        exact absurd (Or.inl hbig) hno
    · rw [if_neg hbig, read_sound_iff hi]
      simp [hbig, advance]

end Readers

theorem take_sound_iff (maxString : ℕ) (s : ByteArray) (h : Inv s) (kind : Kind) :
    Safe (Call.run maxString (.take kind) s) ↔ ¬Defective maxString s (.take kind) := by
  have hword : ∀ {α : Type} (n : ℕ) (g : ℕ → α) (k : α → Item), 0 < n →
      Safe ((Value.item <$> k <$> (readWord n >>= fun v => pure (g v))) s) :=
    fun n g k h0 => (safe_item_iff _ k s).mpr (((readWord_decodes n h0).map g).sound h)
  have hno : ∀ k, storedLength s.endian s.unread k = none → ¬Defective maxString s (.take k) := by
    rintro k hk ⟨len, w, he, -⟩
    rw [hk] at he
    cases he
  cases kind with
  | stringF16 =>
    have hd := (readWord_decodes 2 (by decide)).map UInt16.ofNat
    have hr := readString_sound_iff h hd UInt16.toNat maxString
    rw [Option.map_map] at hr
    exact (safe_item_iff _ Item.stringF16 s).trans hr
  | stringF32 =>
    have hd := (readWord_decodes 4 (by decide)).map UInt32.ofNat
    have hr := readString_sound_iff h hd UInt32.toNat maxString
    rw [Option.map_map] at hr
    exact (safe_item_iff _ Item.stringF32 s).trans hr
  | stringF64 =>
    have hd := (readWord_decodes 8 (by decide)).map UInt64.ofNat
    have hr := readString_sound_iff h hd UInt64.toNat maxString
    rw [Option.map_map] at hr
    exact (safe_item_iff _ Item.stringF64 s).trans hr
  | stringVint =>
    have hr := readString_sound_iff h readUint64_decodes UInt64.toNat maxString
    rw [Option.map_map] at hr
    exact (safe_item_iff _ Item.stringVint s).trans hr
  | fint8 =>
    exact iff_of_true ((safe_item_iff _ Item.fint8 s).mpr
      ((readFuint8_decodes.map UInt8.toInt8).sound h)) (hno _ rfl)
  | fuint8 =>
    exact iff_of_true ((safe_item_iff _ Item.fuint8 s).mpr (readFuint8_decodes.sound h))
      (hno _ rfl)
  | fint16 => exact iff_of_true (hword 2 _ Item.fint16 (by decide)) (hno _ rfl)
  | fuint16 => exact iff_of_true (hword 2 _ Item.fuint16 (by decide)) (hno _ rfl)
  | fint32 => exact iff_of_true (hword 4 _ Item.fint32 (by decide)) (hno _ rfl)
  | fuint32 => exact iff_of_true (hword 4 _ Item.fuint32 (by decide)) (hno _ rfl)
  | fint64 => exact iff_of_true (hword 8 _ Item.fint64 (by decide)) (hno _ rfl)
  | fuint64 => exact iff_of_true (hword 8 _ Item.fuint64 (by decide)) (hno _ rfl)
  | int32 =>
    exact iff_of_true ((safe_item_iff _ Item.int32 s).mpr
      ((readUint32_decodes.map decodeZigzag32).sound h)) (hno _ rfl)
  | uint32 =>
    exact iff_of_true ((safe_item_iff _ Item.uint32 s).mpr (readUint32_decodes.sound h))
      (hno _ rfl)
  | int64 =>
    exact iff_of_true ((safe_item_iff _ Item.int64 s).mpr
      ((readUint64_decodes.map decodeZigzag64).sound h)) (hno _ rfl)
  | uint64 =>
    exact iff_of_true ((safe_item_iff _ Item.uint64 s).mpr (readUint64_decodes.sound h))
      (hno _ rfl)
  | float => exact iff_of_true (hword 4 _ Item.float (by decide)) (hno _ rfl)
  | double => exact iff_of_true (hword 8 _ Item.double (by decide)) (hno _ rfl)

theorem safe_unit_of_returns {op : Op Unit} (hop : Returns op) (s : ByteArray) (h : Inv s) :
    Safe ((op >>= fun _ => pure Value.unit) s) := by
  obtain ⟨a, t, ht, -⟩ := hop s h
  rw [bind_ok ht]
  trivial

theorem run_safe_iff (maxString : ℕ) (s : ByteArray) (h : Inv s) (c : Call)
    (hsz : c.demand < 2^53) : Safe (c.run maxString s) ↔ ¬Defective maxString s c := by
  cases c with
  | write buf => exact iff_of_true (safe_unit_of_returns (returns_write buf hsz) s h) id
  | read n =>
    have hr : Safe ((Value.bytes <$> ByteArray.read n) s) ↔ Sound (ByteArray.read n s) := by
      simp only [Functor.map, EStateM.map]
      cases ByteArray.read n s <;> rfl
    exact hr.trans (read_sound_iff h n)
  | put item => exact iff_of_true (safe_unit_of_returns (returns_put item hsz) s h) id
  | take kind => exact take_sound_iff maxString s h kind
  | writeStringWithoutLength value =>
    exact iff_of_true (safe_unit_of_returns (returns_write value hsz) s h) id
  | setIsLittleEndian val =>
    exact iff_of_true (safe_unit_of_returns (returns_setIsLittleEndian val) s h) id
  | setPosition v =>
    refine iff_of_true ?_ id
    by_cases hv : s.capacity < v
    · rw [Call.run, bind_error (setPosition_short s v hv)]
      rfl
    · rw [Call.run, bind_ok (setPosition_ok s h v (by omega)).1]
      trivial
  | clear => exact iff_of_true (safe_unit_of_returns returns_clear s h) id
  | toString =>
    have ho : observe ByteArray.toString s = .ok s.unread s := by
      rw [observe, toString_ok s h]
    refine iff_of_true ?_ id
    rw [Call.run, map_eq_bind, bind_ok ho]
    trivial
  | getReadBuffers len =>
    obtain ⟨spans, hr, ht⟩ := getReadBuffers_ok s h len
    have ho : observe (fun s => ByteArray.getReadBuffers s len) s =
        .ok (min len s.getReadSize, spans) s := by
      rw [observe, hr]
    have hle : s.position+min len s.getReadSize ≤ s.capacity :=
      le_trans (h.advance_le (Nat.min_le_right _ _)) h.size_le
    refine iff_of_true ?_ id
    rw [Call.run, map_eq_bind, bind_ok ho]
    exact Tiles.inside h ht hle
  | getWriteBuffers len =>
    obtain ⟨spans, t, hr, hg, hcap, ht⟩ := getWriteBuffers_ok s h len hsz
    refine iff_of_true ?_ id
    rw [Call.run, map_eq_bind, bind_ok hr]
    rw [← hg.baseSize_eq] at ht
    exact Tiles.inside hg.inv ht hcap
  | readFromFile file =>
    have hf : ∀ b ∈ file, b.length < 2^53 := by
      intro b hb
      obtain rfl := Option.mem_def.mp hb
      exact hsz
    obtain ⟨a, t, ht, -⟩ := returns_readFromFile file hf s h
    refine iff_of_true ?_ id
    rw [Call.run, map_eq_bind, bind_ok ht]
    trivial

/-- In every reachable state a call stays inside the nodes, and fails only by
`out_of_range`, exactly when it is not one of the defective requests. -/
theorem memory_safe_iff (maxString b : ℕ) (hb : 1 ≤ b) (raw : ℕ → ℕ → UInt8)
    (calls : List Call) (hsz : ∀ c ∈ calls, c.demand < 2^53) (t : ByteArray)
    (ht : after maxString calls (create raw b) = some t) (c : Call) (hc : c.demand < 2^53) :
    Safe (c.run maxString t) ↔ ¬Defective maxString t c :=
  run_safe_iff maxString t (fresh_after_inv maxString b hb raw calls hsz t ht).1 c hc

theorem memory_safe_toString :
    ∃ t, after 100 [.write [1, 2, 3, 4], .setPosition 1] (create (fun _ _ => 0) 4) = some t ∧
      Safe (Call.run 100 .toString t) ∧ ¬Defective 100 t .toString := by
  refine ⟨_, rfl, ?_, id⟩
  exact (memory_safe_iff 100 4 (by decide) (fun _ _ => 0) [.write [1, 2, 3, 4], .setPosition 1]
    (by decide) _ rfl .toString (by decide)).mpr id

/-- An empty string that was written at the end of the capacity cannot be read. -/
theorem empty_string_unsafe :
    ∃ t, after 100 [.put (.stringF16 []), .setPosition 0] (create (fun _ _ => 0) 2) = some t ∧
      Call.run 100 (.take .stringF16) t = .error .nullDeref (t.advance 2) ∧
      ¬Safe (Call.run 100 (.take .stringF16) t) := by
  refine ⟨_, rfl, rfl, ?_⟩
  intro hs
  cases (show Stop.nullDeref = Stop.outOfRange from hs)

end Lamb.ByteArray
