import Lamb.ByteArrayPositional
import Lamb.ByteArraySafety

/-!
# The byte array and files

`writeToFile` hands the unread bytes to an output stream, one node at a time, and
`readFromFile` appends a file block by block. The length of a chunk is the smaller of
the block size and the bytes left, less the offset in the block. It is right in the
cases where the offset is zero or the bytes left fill a block.
-/

set_option autoImplicit false

namespace Lamb.ByteArray
open Lamb.ByteString Lamb.Blocks

/-- The loop of `writeToFile` on the chain that starts at node `i`: what it hands to
`ofs.write`. The offset goes through an `int`. A chunk of negative length or outside of
its node is undefined. -/
def writeNodes (b : ℕ) : ℕ → List Node → ℤ → ℤ → Except Stop (List Span × Bytes)
  | i, nodes, pos, read_size =>
    if read_size ≤ 0 then .ok ([], []) else
    match nodes with
    | [] => .error .nullDeref
    | n::rest =>
      let diff := (pos % b).bmod (2^32)
      let len := (if b < read_size then (b : ℤ) else read_size)-diff
      if diff < 0 ∨ len < 0 ∨ n.ptr.length < diff+len then .error .outOfBounds else
      match writeNodes b (i+1) rest (pos+len) (read_size-len) with
      | .error e => .error e
      | .ok (spans, text) =>
        .ok (⟨i, diff.toNat, len.toNat⟩::spans, segment n.ptr diff.toNat len.toNat ++ text)

/-- `writeToFile` on a file that opens or does not: the answer, and what is written. -/
def writeToFile (opened : Bool) (s : ByteArray) : Except Stop (Bool × List Span × Bytes) :=
  if opened then
    let cur := match s.cur with
      | none => (0, [])
      | some i => (i, s.nodes.drop i)
    match writeNodes s.baseSize cur.1 cur.2 s.position s.getReadSize with
    | .error e => .error e
    | .ok (spans, text) => .ok (true, spans, text)
  else .ok (false, [], [])

section Nodes

variable (b : ℕ)

theorem writeNodes_done (i : ℕ) (nodes : List Node) (pos read_size : ℤ) (h : read_size ≤ 0) :
    writeNodes b i nodes pos read_size = .ok ([], []) := by
  unfold writeNodes
  rw [if_pos h]

/-- A loop that comes to an end with bytes to write has written a chunk of its first
node. -/
theorem writeNodes_chunk (i : ℕ) (nodes : List Node) (pos read_size : ℤ) (h : 0 < read_size)
    (spans : List Span) (text : Bytes)
    (hok : writeNodes b i nodes pos read_size = .ok (spans, text)) :
    ∃ diff len : ℕ, (pos % b).bmod (2^32) = diff ∧ (len : ℤ) = min (b : ℤ) read_size-diff ∧
      ∃ n rest more tail, nodes = n::rest ∧ spans = ⟨i, diff, len⟩::more ∧
        text = segment n.ptr diff len ++ tail ∧
        writeNodes b (i+1) rest (pos+len) (read_size-len) = .ok (more, tail) := by
  unfold writeNodes at hok
  rw [if_neg (Int.not_le.mpr h)] at hok
  cases nodes with
  | nil => cases hok
  | cons n rest =>
    have hmin : (if b < read_size then (b : ℤ) else read_size) = min (b : ℤ) read_size := by
      split_ifs <;> omega
    simp only [hmin] at hok
    split_ifs at hok with hbad
    rw [not_or, not_or, Int.not_lt, Int.not_lt] at hbad
    obtain ⟨hd, hl, -⟩ := hbad
    obtain ⟨diff, hdiff⟩ := Int.eq_ofNat_of_zero_le hd
    rw [hdiff] at hok hl
    obtain ⟨len, hlen⟩ := Int.eq_ofNat_of_zero_le hl
    rw [hlen] at hok
    cases hw : writeNodes b (i+1) rest (pos+len) (read_size-len) with
    | error e =>
      rw [hw] at hok
      cases hok
    | ok x =>
      rw [hw] at hok
      obtain ⟨rfl, rfl⟩ := Prod.mk.inj (Except.ok.inj hok)
      exact ⟨diff, len, hdiff, hlen.symm, n, rest, x.1, x.2, rfl, rfl, rfl, hw⟩

theorem writeNodes_cons (i : ℕ) (n : Node) (rest : List Node) (hn : n.ptr.length = b)
    (pos read_size : ℤ) (h : 0 < read_size) (diff len : ℕ)
    (hd : (pos % b).bmod (2^32) = diff) (hl : (diff : ℤ)+len = min (b : ℤ) read_size)
    (more : List Span) (tail : Bytes)
    (hw : writeNodes b (i+1) rest (pos+len) (read_size-len) = .ok (more, tail)) :
    writeNodes b i (n::rest) pos read_size =
      .ok (⟨i, diff, len⟩::more, segment n.ptr diff len ++ tail) := by
  have hmin : (if b < read_size then (b : ℤ) else read_size)-diff = len := by
    split_ifs <;> omega
  unfold writeNodes
  rw [if_neg (Int.not_le.mpr h)]
  simp only [hd, hmin]
  rw [if_neg (by omega), hw]
  simp only [Int.toNat_natCast]

/-- From the front of a block on, the loop writes whole blocks and what is left. -/
theorem writeNodes_aligned (hb : 0 < b) (rest : List Node) (hr : NodesOf b rest) (i size : ℕ)
    (hle : size ≤ rest.length*b) :
    ∃ spans text, writeNodes b i rest (i*b : ℕ) size = .ok (spans, text) ∧
      Tiles b spans (i*b) (i*b+size) := by
  induction rest generalizing i size with
  | nil =>
    obtain rfl : size = 0 := by simpa using hle
    exact ⟨[], [], writeNodes_done b i [] _ _ (by simp), rfl⟩
  | cons n rest ih =>
    by_cases h0 : size = 0
    · subst h0
      exact ⟨[], [], writeNodes_done b i _ _ _ (by simp), rfl⟩
    have hrest : NodesOf b rest := fun m hm => hr m (by simp [hm])
    have hdiff : (((i*b : ℕ) : ℤ) % b).bmod (2^32) = (0 : ℕ) := by
      rw [Int.natCast_mul, Int.mul_emod_left]
      rfl
    rw [List.length_cons, Nat.succ_mul] at hle
    by_cases hfit : size ≤ b
    · refine ⟨_, _, writeNodes_cons b i n rest (hr n (by simp)).2 _ _ (by omega) 0 size hdiff
        (by omega) [] [] (writeNodes_done b _ _ _ _ (by omega)), ?_⟩
      exact ⟨rfl, by simp only; omega, by simp only; omega, rfl⟩
    · obtain ⟨spans, text, hw, ht⟩ := ih hrest (i+1) (size-b) (by omega)
      have hpos : ((i*b : ℕ) : ℤ)+(b : ℕ) = ((i+1)*b : ℕ) := by
        rw [Nat.succ_mul, Int.natCast_add]
      refine ⟨_, _, writeNodes_cons b i n rest (hr n (by simp)).2 _ _ (by omega) 0 b hdiff
        (by omega) spans text ?_, rfl, hb, by simp only; omega, ?_⟩
      · rw [hpos, ← Int.natCast_sub (by omega)]
        exact hw
      · rw [Nat.succ_mul, Nat.add_assoc, Nat.add_sub_of_le (by omega)] at ht
        exact ht

theorem writeNodes_load (nodes : List Node) (i : ℕ) (pos read_size : ℤ) (spans : List Span)
    (text : Bytes) (hw : writeNodes b i (nodes.drop i) pos read_size = .ok (spans, text))
    (hin : ∀ sp ∈ spans, ∃ n, nodes[sp.node]? = some n ∧ sp.off+sp.len ≤ n.ptr.length) :
    load nodes spans = .ok text := by
  induction spans generalizing i pos read_size text with
  | nil =>
    by_cases h : 0 < read_size
    · obtain ⟨diff, len, -, -, n, rest, more, tail, -, he, -⟩ :=
        writeNodes_chunk b i _ pos read_size h _ _ hw
      cases he
    · rw [writeNodes_done b _ _ _ _ (Int.not_lt.mp h)] at hw
      obtain ⟨-, rfl⟩ := Prod.mk.inj (Except.ok.inj hw)
      rfl
  | cons sp spans ih =>
    have h : 0 < read_size := by
      by_contra hno
      rw [writeNodes_done b _ _ _ _ (Int.not_lt.mp hno)] at hw
      cases hw
    obtain ⟨diff, len, -, -, n, rest, more, tail, hnodes, he, rfl, hmore⟩ :=
      writeNodes_chunk b i _ pos read_size h _ _ hw
    obtain ⟨rfl, rfl⟩ := List.cons.inj he
    have hi : i < nodes.length := by
      by_contra hno
      rw [List.drop_eq_nil_of_le (Nat.not_lt.mp hno)] at hnodes
      cases hnodes
    rw [List.drop_eq_getElem_cons hi] at hnodes
    obtain ⟨rfl, rfl⟩ := List.cons.inj hnodes
    have hl := ih (i+1) _ _ tail hmore fun x hx => hin x (List.mem_cons_of_mem _ hx)
    obtain ⟨m, hm, hlen⟩ := hin _ List.mem_cons_self
    rw [List.getElem?_eq_getElem hi] at hm
    obtain rfl := Option.some.inj hm
    rw [load, List.getElem?_eq_getElem hi]
    simp only [if_neg (Nat.not_lt.mpr hlen), hl]

end Nodes

/-- The arrays whose unread bytes `writeToFile` writes: nothing is left, or the offset in
the block fits an `int` and is zero or has a full block of unread bytes behind it. -/
def Writable (s : ByteArray) : Prop :=
  s.getReadSize = 0 ∨ s.getPosition % s.baseSize < 2^31 ∧
    (s.getPosition % s.baseSize = 0 ∨ s.baseSize ≤ s.getReadSize)

theorem offset_toInt (b p : ℕ) (hp : p % b < 2^31) :
    ((p : ℤ) % b).bmod (2^32) = (p % b : ℕ) := by
  rw [← Int.natCast_mod, Int.bmod_eq_of_le (by omega) (by omega)]

theorem offset_toInt_lt (p : ℤ) (diff : ℕ) (h : p.bmod (2^32) = diff) : diff < 2^31 := by
  have hlt := Int.bmod_lt (x := p) (m := 2^32) (by decide)
  omega

section Written

variable {s : ByteArray} (h : Inv s)
include h

/-- The loop of `writeToFile` on the unread bytes: where it starts. -/
theorem writeNodes_cursor (hne : 0 < s.getReadSize) :
    ∃ n rest, s.cur = some (s.position / s.baseSize) ∧
      s.nodes.drop (s.position / s.baseSize) = n::rest ∧ NodesOf s.baseSize (n::rest) ∧
      (rest.length+1)*s.baseSize+s.position / s.baseSize*s.baseSize = s.capacity := by
  have hsc := h.size_le
  obtain ⟨hcur, hi⟩ := h.cur_some (by unfold getReadSize at hne; omega)
  have hl := h.drop_length hi
  have hn := h.drop_nodes (s.position / s.baseSize)
  rw [List.drop_eq_getElem_cons hi] at hl hn ⊢
  exact ⟨_, _, hcur, rfl, hn, hl⟩

theorem writeNodes_tiles (hw : Writable s) (hne : 0 < s.getReadSize) :
    ∃ spans text, writeNodes s.baseSize (s.position / s.baseSize)
        (s.nodes.drop (s.position / s.baseSize)) s.position s.getReadSize = .ok (spans, text) ∧
      Tiles s.baseSize spans s.position s.size := by
  have hb := h.base_pos
  have hp := h.position_le
  have hsc := h.size_le
  have hdm := Nat.div_add_mod' s.position s.baseSize
  have hmod := Nat.mod_lt s.position hb
  obtain ⟨n, rest, -, hdrop, hnodes, hcap⟩ := writeNodes_cursor h hne
  obtain ⟨hoff, hfull⟩ := hw.resolve_left (by omega)
  have hsize : s.position+s.getReadSize = s.size := Nat.add_sub_of_le hp
  unfold getPosition at hoff hfull
  rw [hdrop]
  rcases hfull with h0 | hfull
  · have hpos : s.position = s.position / s.baseSize*s.baseSize := by omega
    obtain ⟨spans, text, hok, ht⟩ := writeNodes_aligned s.baseSize hb (n::rest) hnodes
      (s.position / s.baseSize) s.getReadSize (by rw [List.length_cons]; omega)
    rw [← hpos, hsize] at ht
    rw [← hpos] at hok
    exact ⟨spans, text, hok, ht⟩
  · have hsucc : (s.position / s.baseSize+1)*s.baseSize =
        s.position+(s.baseSize-s.position % s.baseSize) := by
      rw [Nat.succ_mul]
      omega
    rw [Nat.succ_mul] at hcap
    obtain ⟨spans, text, hok, ht⟩ := writeNodes_aligned s.baseSize hb rest
      (fun m hm => hnodes m (by simp [hm])) (s.position / s.baseSize+1)
      (s.getReadSize-(s.baseSize-s.position % s.baseSize)) (by omega)
    rw [hsucc] at hok ht
    have hstart := writeNodes_cons s.baseSize (s.position / s.baseSize) n rest
      (hnodes n (by simp)).2 s.position s.getReadSize (by omega) (s.position % s.baseSize)
      (s.baseSize-s.position % s.baseSize) (offset_toInt _ _ hoff) (by omega) spans text
      (by rw [← Int.natCast_add, ← Int.natCast_sub (by omega)]; exact hok)
    refine ⟨_, _, hstart, hdm, by simp only; omega, by simp only; omega, ?_⟩
    rw [Nat.add_assoc, Nat.add_sub_of_le (by omega), hsize] at ht
    exact ht

omit h in
/-- Written spans that tile the unread bytes only come from a writable array. -/
theorem writable_of_tiles (hne : 0 < s.getReadSize) (spans : List Span) (text : Bytes)
    (hok : writeNodes s.baseSize (s.position / s.baseSize)
      (s.nodes.drop (s.position / s.baseSize)) s.position s.getReadSize = .ok (spans, text))
    (ht : Tiles s.baseSize spans s.position s.size) : Writable s := by
  have hdm := Nat.div_add_mod' s.position s.baseSize
  obtain ⟨diff, len, hdiff, hlen, n, rest, more, tail, -, rfl, -, hmore⟩ :=
    writeNodes_chunk _ _ _ _ _ (by omega) _ _ hok
  obtain ⟨hstart, hpos, -, hrest⟩ := ht
  simp only at hstart hpos hrest
  have hoff : diff = s.position % s.baseSize := by omega
  have hlt := offset_toInt_lt _ _ hdiff
  subst hoff
  by_contra hno
  have hshort : s.position % s.baseSize ≠ 0 ∧ s.getReadSize < s.baseSize := by
    unfold Writable getPosition at hno
    omega
  -- The first chunk stops short of the data, and the loop goes on in the next block.
  obtain ⟨diff, len', -, -, n', rest', more', tail', -, rfl, -, -⟩ :=
    writeNodes_chunk _ _ _ _ _ (by omega) _ _ hmore
  have hnext := hrest.1
  simp only [Nat.succ_mul] at hnext
  omega

theorem writeToFile_tiles_iff :
    (∃ spans text, s.writeToFile true = .ok (true, spans, text) ∧
      Tiles s.baseSize spans s.position s.size ∧ text = s.unread) ↔ Writable s := by
  have hp := h.position_le
  have hul := h.unread_length
  by_cases hne : 0 < s.getReadSize
  · obtain ⟨n, rest, hcur, hdrop, -, -⟩ := writeNodes_cursor h hne
    simp only [writeToFile, if_true, hcur]
    constructor
    · rintro ⟨spans, text, hok, ht, -⟩
      cases hw : writeNodes s.baseSize (s.position / s.baseSize)
          (s.nodes.drop (s.position / s.baseSize)) s.position s.getReadSize with
      | error e =>
        rw [hw] at hok
        cases hok
      | ok x =>
        rw [hw] at hok
        obtain ⟨-, hx⟩ := Prod.mk.inj (Except.ok.inj hok)
        obtain ⟨rfl, rfl⟩ := Prod.mk.inj hx
        exact writable_of_tiles hne _ _ hw ht
    · intro hwr
      obtain ⟨spans, text, hw, ht⟩ := writeNodes_tiles h hwr hne
      have hload := writeNodes_load s.baseSize s.nodes _ _ _ spans text hw
        (Tiles.inside h ht h.size_le)
      have hseg := h.load_segment ht h.size_le
      rw [hload] at hseg
      refine ⟨spans, text, by rw [hw], ht, ?_⟩
      rw [Except.ok.inj hseg, show s.size-s.position = s.getReadSize from rfl,
        h.segment_unread _ (le_refl _), ← hul, List.take_length]
  · have h0 : s.getReadSize = 0 := by omega
    refine iff_of_true ⟨[], [], ?_, ?_, ?_⟩ (.inl h0)
    · have hdone : ∀ i nodes, writeNodes s.baseSize i nodes s.position s.getReadSize =
          .ok ([], []) := fun i nodes => writeNodes_done _ i nodes _ _ (by omega)
      simp only [writeToFile, if_true, hdone]
    · unfold getReadSize at h0
      exact show s.position = s.size by omega
    · rw [h0] at hul
      exact (List.length_eq_zero_iff.mp hul).symm

end Written

section ReadBack

/-- The loop of `readFromFile` appends the whole file. -/
theorem readChunks_wrote (fuel : ℕ) (file : Bytes) (hf : file.length < fuel)
    (hsz : file.length < 2^53) (s : ByteArray) (h : Inv s) :
    ∃ t, readChunks fuel file s = .ok () t ∧ Wrote s file t := by
  induction fuel generalizing file s with
  | zero => exact absurd hf (Nat.not_lt_zero _)
  | succ fuel ih =>
    have hb := h.base_pos
    obtain ⟨u, hu, hw⟩ := write_ok s h (file.take s.baseSize)
      (lt_of_le_of_lt (List.length_take_le' _ _) hsz)
    have hrun : readChunks (fuel+1) file s =
        (if decide (file.length < s.baseSize) = true then pure ()
          else readChunks fuel (file.drop s.baseSize)) u := bind_ok hu
    rw [hrun]
    by_cases heof : file.length < s.baseSize
    · rw [if_pos (decide_eq_true heof)]
      rw [List.take_of_length_le (le_of_lt heof)] at hw
      exact ⟨u, rfl, hw⟩
    · rw [if_neg (by simpa using heof)]
      have hd := List.length_drop (i := s.baseSize) (l := file)
      obtain ⟨t, ht, hwt⟩ := ih (file.drop s.baseSize) (by omega) (by omega) u hw.inv
      have hall := Wrote.trans h hw hwt
      rw [List.take_append_drop] at hall
      exact ⟨t, ht, hall⟩

theorem readFromFile_wrote (file : Bytes) (hsz : file.length < 2^53) (s : ByteArray)
    (h : Inv s) : ∃ t, readFromFile (some file) s = .ok true t ∧ Wrote s file t := by
  obtain ⟨t, ht, hw⟩ := readChunks_wrote (file.length+1) file (Nat.lt_succ_self _) hsz s h
  exact ⟨t, bind_ok ht, hw⟩

/-- A fresh array that took in a file holds the file, from position zero on. -/
theorem fresh_read_back (raw : ℕ → ℕ → UInt8) (b : ℕ) (hb : 0 < b) (file : Bytes)
    (hsz : file.length < 2^53) :
    ∃ u, (do let opened ← readFromFile (some file); setPosition 0; pure opened)
        (create raw b) = .ok true u ∧ u.toString = .ok file := by
  have hi := create_inv raw b hb
  obtain ⟨t, ht, hw⟩ := readFromFile_wrote file hsz _ hi
  obtain ⟨hset, hinv⟩ := setPosition_ok t hw.inv 0 (Nat.zero_le _)
  refine ⟨t.moved 0, by rw [bind_ok ht, bind_ok hset]; rfl, ?_⟩
  have hcontent : t.content = file := by
    have hempty : (create raw b).content = [] := by simp [content, create]
    have hpos : (create raw b).position = 0 := rfl
    rw [hw.content_eq, hempty, hpos, overwrite_zero _ _ (Nat.zero_le _)]
  rw [toString_ok _ hinv, ← hcontent]
  simp only [unread, content, moved, List.drop_zero, Nat.max_eq_left (Nat.zero_le _)]

end ReadBack

/-- A byte array and a file it is written to: the file gets exactly the unread bytes of
the array, a fresh array that reads the file has the same text, and the array is as it
was. -/
def FileRoundTrip (s fresh : ByteArray) : Prop :=
  ∃ spans file, observe (writeToFile true) s = .ok (true, spans, file) s ∧
    Tiles s.baseSize spans s.getPosition s.getSize ∧ file = s.unread ∧
    ∃ u text, (do let opened ← readFromFile (some file); setPosition 0; pure opened) fresh =
        .ok true u ∧ u.toString = .ok text ∧ s.toString = .ok text

section Runs

variable (maxString b : ℕ) (hb : 1 ≤ b) (raw : ℕ → ℕ → UInt8) (calls : List Call)
  (hsz : ∀ c ∈ calls, c.demand < 2^53) (t : ByteArray)
  (ht : after maxString calls (create raw b) = some t)
include hb hsz ht

/-- In every reachable state that fits into memory the round trip over a file, into a
fresh array of any block size, holds exactly for the writable arrays. -/
theorem file_round_trip_iff (hmem : t.getSize < 2^53) (raw' : ℕ → ℕ → UInt8) (b' : ℕ)
    (hb' : 1 ≤ b') : FileRoundTrip t (create raw' b') ↔ Writable t := by
  have h := (fresh_after_inv maxString b hb raw calls hsz t ht).1
  rw [← writeToFile_tiles_iff h]
  constructor
  · rintro ⟨spans, file, hok, htiles, hfile, -⟩
    exact ⟨spans, file, (observe_eq_ok _ _ _).mp hok, htiles, hfile⟩
  · rintro ⟨spans, file, hok, htiles, rfl⟩
    have hlen : t.unread.length < 2^53 := by
      rw [h.unread_length]
      unfold getReadSize getSize at *
      omega
    obtain ⟨u, hu, htext⟩ := fresh_read_back raw' b' hb' t.unread hlen
    exact ⟨spans, t.unread, (observe_eq_ok _ _ _).mpr hok, htiles, rfl, u, t.unread, hu, htext,
      toString_ok t h⟩

omit hb hsz ht in
theorem file_round_trip_full_block :
    ∃ t, after 100 [.write [1, 2, 3, 4, 5, 6], .setPosition 1] (create (fun _ _ => 0) 4) =
        some t ∧ FileRoundTrip t (create (fun _ _ => 0) 3) := by
  refine ⟨_, rfl, ?_⟩
  exact (file_round_trip_iff 100 4 (by decide) (fun _ _ => 0)
    [.write [1, 2, 3, 4, 5, 6], .setPosition 1] (by decide) _ rfl (by decide)
    (fun _ _ => 0) 3 (by decide)).mpr (.inr ⟨by decide, .inr (by decide)⟩)

omit hb hsz ht in
/-- Of three unread bytes behind an offset of one two are written, and the loop goes on
behind the last node. -/
theorem writeToFile_short_block :
    ∃ t, after 100 [.write [1, 2, 3, 4], .setPosition 1] (create (fun _ _ => 0) 4) = some t ∧
      t.toString = .ok [2, 3, 4] ∧ t.writeToFile true = .error .nullDeref ∧
      ¬ FileRoundTrip t (create (fun _ _ => 0) 4) := by
  refine ⟨_, rfl, rfl, rfl, ?_⟩
  rintro ⟨spans, file, hok, -⟩
  cases (observe_eq_ok _ _ _).mp hok

end Runs

end Lamb.ByteArray
