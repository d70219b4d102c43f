import Lamb.Library.Base64
import Mathlib.Tactic.IntervalCases

/-!
# Base64 of the handshake

The encoder packs three bytes into four table indices, the decoder four characters into
three bytes. The decoder's buffer is sized by the size of the string object, not of its
text, so that only short texts fit. A write at or past the end of the buffer is an error
of its own here, since nothing is known of what follows it.
-/

set_option autoImplicit false

namespace Lamb.HashUtil
open Lamb.ByteString Lamb.Base64

/-! ## Encoding -/

/-- The table `base64`. -/
def base64 : Bytes :=
  "ABCDEFGHIJKLMNOPQRSTUVWXYZabcdefghijklmnopqrstuvwxyz0123456789+/".toUTF8.data.toList

def encodeGroup (chunk : Bytes) : List ℕ × ℕ :=
  let i := chunk.length
  let padding := if i = 2 then 1 else if i = 1 then 2 else 0
  let packed := (· <<< 8)^[3-i] (chunk.foldl (fun packed c => packed <<< 8 ||| c.toNat) 0)
  ([packed >>> 18, packed >>> 12 &&& 0x3f] ++
    (if padding ≠ 2 then [packed >>> 6 &&& 0x3f] else []) ++
    (if padding = 0 then [packed &&& 0x3f] else []), padding)

def encodeGroups : ℕ → Bytes → List (List ℕ × ℕ)
  | 0, _ => []
  | fuel+1, data =>
    if data = [] then [] else encodeGroup (data.take 3)::encodeGroups fuel (data.drop 3)

def render (g : List ℕ × ℕ) : Bytes := g.1.map (base64.getD · 0) ++ List.replicate g.2 61

def base64encode (data : Bytes) : Bytes := (encodeGroups data.length data).flatMap render

/-- Every index at which `base64encode` reads the table. -/
def tableIndices (data : Bytes) : List ℕ := (encodeGroups data.length data).flatMap Prod.fst

/-! ## Decoding -/

structure Group where
  i : ℕ
  padding : ℕ
  packed : ℕ

/-- `val`, or `none` for an invalid character. -/
def charValue (c : UInt8) : Option ℕ :=
  if 65 ≤ c ∧ c ≤ 90 then some (c.toNat-65)
  else if 97 ≤ c ∧ c ≤ 122 then some (c.toNat-97+26)
  else if 48 ≤ c ∧ c ≤ 57 then some (c.toNat-48+52)
  else if c = 43 then some 62
  else if c = 47 then some 63
  else none

/-- One round of the inner loop, or `return ""`. -/
def readChar (g : Group) (c : UInt8) : Option Group :=
  if c = 61 then some ⟨g.i+1, g.padding+1, g.packed <<< 6⟩
  else if 0 < g.padding then none
  else (charValue c).map fun val => ⟨g.i+1, g.padding, g.packed <<< 6 ||| val⟩

def readGroup (src : Bytes) : Option Group := (src.take 4).foldlM readChar ⟨0, 0, 0⟩

/-- `*writeBuf++ = b` in a string of this size, with the bytes written so far. -/
def write (size : ℕ) (res : Bytes) (b : UInt8) : Except ℕ Bytes :=
  if res.length < size then .ok (res ++ [b]) else .error res.length

def Group.bytes (g : Group) : Bytes :=
  [UInt8.ofNat (g.packed >>> 16 &&& 0xff)] ++
    (if g.padding ≠ 2 then [UInt8.ofNat (g.packed >>> 8 &&& 0xff)] else []) ++
    (if g.padding = 0 then [UInt8.ofNat (g.packed &&& 0xff)] else [])

def decodeGroups (size : ℕ) : ℕ → Bytes → Bytes → Except ℕ Bytes
  | 0, _, res => .ok res
  | fuel+1, src, res =>
    if src = [] then .ok res
    else
      match readGroup src with
      | none => .ok []
      | some g =>
        if g.i ≠ 4 then .ok []
        else if 0 < g.padding ∧ src.drop 4 ≠ [] then .ok []
        else if 2 < g.padding then .ok []
        else do
          let res ← g.bytes.foldlM (write size) res
          decodeGroups size fuel (src.drop 4) res

/-- The decoder with its string resized to `size`. -/
def base64decodeIn (size : ℕ) (src : Bytes) : Except ℕ Bytes :=
  decodeGroups size src.length src []

/-- `sizeof(std::string)`. -/
def stringSize : ℕ := 32

def base64decode (src : Bytes) : Except ℕ Bytes := base64decodeIn (stringSize*3/4) src

attribute [local simp] encodeGroups decodeGroups

example : base64encode [77, 97, 110, 77] = [84, 87, 70, 117, 84, 81, 61, 61] := by decide

section Packing

theorem shift_or (packed v w : ℕ) (hv : v < 2^w) : packed <<< w ||| v = 2^w*packed+v := by
  rw [Nat.shiftLeft_eq, Nat.mul_comm, Nat.two_pow_add_eq_or_of_lt hv]

theorem charValue_eq (c : UInt8) : charValue c =
    if 65 ≤ c.toNat ∧ c.toNat ≤ 90 then some (c.toNat-65)
    else if 97 ≤ c.toNat ∧ c.toNat ≤ 122 then some (c.toNat-97+26)
    else if 48 ≤ c.toNat ∧ c.toNat ≤ 57 then some (c.toNat-48+52)
    else if c.toNat = 43 then some 62
    else if c.toNat = 47 then some 63
    else none := by
  simp only [charValue, UInt8.le_iff_toNat_le, ← UInt8.toNat_inj]
  rfl

/-- The values of the characters are their places in the alphabet. -/
theorem charValue_some (c : UInt8) (v : ℕ) :
    charValue c = some v ↔ v < 64 ∧ code v = c.toNat := by
  rw [charValue_eq]
  generalize c.toNat = n
  constructor
  · intro h
    split_ifs at h with h₁ h₂ h₃ h₄ h₅ <;> obtain rfl := Option.some.inj h
    · exact ⟨by omega, by rw [code, if_pos (by omega)]; omega⟩
    · exact ⟨by omega, by rw [code, if_neg (by omega), if_pos (by omega)]; omega⟩
    · exact ⟨by omega, by rw [code, if_neg (by omega), if_neg (by omega), if_pos (by omega)]; omega⟩
    · exact ⟨by decide, h₄.symm⟩
    · exact ⟨by decide, h₅.symm⟩
  · rintro ⟨hv, rfl⟩
    rcases code_cases v hv with ⟨h, hc⟩ | ⟨h, hc⟩ | ⟨h, hc⟩ | ⟨rfl, hc⟩ | ⟨rfl, hc⟩ <;> rw [hc]
    · rw [if_pos (by omega), Nat.add_sub_cancel_left]
    · rw [if_neg (by omega), if_pos (by omega)]
      congr 1
      omega
    · rw [if_neg (by omega), if_neg (by omega), if_pos (by omega)]
      congr 1
      omega
    · rfl
    · rfl

theorem charValue_letter (c : UInt8) (hc : c ∈ alphabet) : charValue c = some (digit c) := by
  obtain ⟨v, hv, rfl⟩ := exists_letter c hc
  rw [digit_letter v hv]
  exact (charValue_some _ v).mpr ⟨hv, (letter_code v hv).symm⟩

theorem letter_charValue (c : UInt8) (v : ℕ) (h : charValue c = some v) : c ∈ alphabet := by
  obtain ⟨hv, hcode⟩ := (charValue_some c v).mp h
  have hc : letter v = c := UInt8.toNat_inj.mp ((letter_code v hv).trans hcode)
  rw [← hc]
  exact letter_mem v hv

theorem and_low (v w : ℕ) (hv : w = 63 ∨ w = 255) : v &&& w = v % (w+1) := by
  rcases hv with rfl | rfl
  · exact Nat.and_two_pow_sub_one_eq_mod v 6
  · exact Nat.and_two_pow_sub_one_eq_mod v 8

theorem pack_chunk (chunk : Bytes) :
    chunk.foldl (fun packed c => packed <<< 8 ||| c.toNat) 0 =
      chunk.foldl (fun packed c => 256*packed+c.toNat) 0 := by
  apply List.foldl_ext
  intro packed c _
  exact shift_or packed c.toNat 8 c.toNat_lt

/-- A round writes the chunk in base 64, with zero bits after it. -/
theorem encodeGroup_chunk (chunk : Bytes) (hne : chunk ≠ []) (hlen : chunk.length ≤ 3) :
    (encodeGroup chunk).2 = 3-chunk.length ∧ (encodeGroup chunk).1.length = chunk.length+1 ∧
      (∀ v ∈ (encodeGroup chunk).1, v < 64) ∧
      (encodeGroup chunk).1.foldl (fun n v => 64*n+v) 0 / 4^(3-chunk.length) =
        leValue chunk.reverse := by
  match chunk, hne, hlen with
  | [a], _, _ =>
    have ha := a.toNat_lt
    simp only [encodeGroup, pack_chunk]
    simp [leValue, and_low, Nat.shiftLeft_eq, Nat.shiftRight_eq_div_pow]
    omega
  | [a, b], _, _ =>
    have ha := a.toNat_lt
    have hb := b.toNat_lt
    simp only [encodeGroup, pack_chunk]
    simp [leValue, and_low, Nat.shiftLeft_eq, Nat.shiftRight_eq_div_pow]
    omega
  | [a, b, c], _, _ =>
    have ha := a.toNat_lt
    have hb := b.toNat_lt
    have hc := c.toNat_lt
    simp only [encodeGroup, pack_chunk]
    simp [leValue, and_low, Nat.shiftRight_eq_div_pow]
    omega

end Packing

section Encoding

variable {chunk : Bytes}

def chunkLetters (chunk : Bytes) : Bytes := (encodeGroup chunk).1.map letter

theorem render_chunk (hne : chunk ≠ []) (hlen : chunk.length ≤ 3) :
    render (encodeGroup chunk) =
      chunkLetters chunk ++ List.replicate (3-chunk.length) pad := by
  obtain ⟨hpad, -⟩ := encodeGroup_chunk chunk hne hlen
  rw [render, hpad]
  rfl

theorem letters_chunk (hne : chunk ≠ []) (hlen : chunk.length ≤ 3) :
    Letters (chunkLetters chunk) := by
  obtain ⟨-, -, hv, -⟩ := encodeGroup_chunk chunk hne hlen
  intro c hc
  obtain ⟨v, hmem, rfl⟩ := List.mem_map.mp hc
  exact letter_mem v (hv v hmem)

theorem length_chunk (hne : chunk ≠ []) (hlen : chunk.length ≤ 3) :
    (chunkLetters chunk).length = chunk.length+1 := by
  obtain ⟨-, hl, -⟩ := encodeGroup_chunk chunk hne hlen
  rw [chunkLetters, List.length_map, hl]

theorem groupBytes_chunk (hne : chunk ≠ []) (hlen : chunk.length ≤ 3) :
    groupBytes (chunkLetters chunk) (3-chunk.length) = chunk := by
  obtain ⟨-, -, hv, hvalue⟩ := encodeGroup_chunk chunk hne hlen
  have hsize : 3-(3-chunk.length) = chunk.length := by omega
  rw [groupBytes, chunkLetters, number_letters _ hv, hvalue, hsize, beBytes_value]

theorem last_chunk (hne : chunk ≠ []) (hlen : chunk.length ≤ 3) :
    ∃ t : Text, t.chars = render (encodeGroup chunk) ∧ t.bytes = chunk := by
  have hpos := List.length_pos_iff.mpr hne
  have hsize : (chunkLetters chunk).length+(3-chunk.length) = 4 := by
    rw [length_chunk hne hlen]
    omega
  refine ⟨.single _ _ (letters_chunk hne hlen) hsize (by omega), ?_, ?_⟩
  · rw [single_chars, render_chunk hne hlen]
  · rw [single_bytes, groupBytes_chunk hne hlen]

theorem full_chunk (hlen : chunk.length = 3) (t : Text) :
    ∃ t' : Text, t'.chars = render (encodeGroup chunk) ++ t.chars ∧
      t'.bytes = chunk ++ t.bytes := by
  have hne : chunk ≠ [] := List.ne_nil_of_length_eq_add_one hlen
  have hle : chunk.length ≤ 3 := hlen.le
  have hrender := render_chunk hne hle
  have hgroup := groupBytes_chunk hne hle
  have hsize := length_chunk hne hle
  rw [hlen] at hrender hgroup hsize
  refine ⟨t.cons _ hsize (letters_chunk hne hle), ?_, ?_⟩
  · rw [cons_chars, hrender, List.replicate_zero, List.append_nil]
  · rw [cons_bytes, hgroup]

/-- The rounds over some data give a text that stands for it. -/
theorem encodeGroups_text (fuel : ℕ) (data : Bytes) (hne : data ≠ []) (hf : data.length ≤ fuel) :
    ∃ t : Text, t.chars = (encodeGroups fuel data).flatMap render ∧ t.bytes = data := by
  induction fuel generalizing data with
  | zero => exact absurd (List.length_eq_zero_iff.mp (Nat.le_zero.mp hf)) hne
  | succ fuel ih =>
    have hpos := List.length_pos_iff.mpr hne
    rw [encodeGroups, if_neg hne, List.flatMap_cons]
    by_cases hrest : data.drop 3 = []
    · have hlen : data.length ≤ 3 := List.drop_eq_nil_iff.mp hrest
      have hdone : encodeGroups fuel [] = [] := by cases fuel <;> rfl
      rw [hrest, hdone, List.take_of_length_le hlen, List.flatMap_nil, List.append_nil]
      exact last_chunk hne hlen
    · have hmore : 3 < data.length := Nat.lt_of_not_le fun h => hrest (List.drop_eq_nil_iff.mpr h)
      have hthree : (data.take 3).length = 3 := List.length_take_of_le hmore.le
      have hfuel : (data.drop 3).length ≤ fuel := by
        rw [List.length_drop]
        omega
      obtain ⟨t, hchars, hbytes⟩ := ih (data.drop 3) hrest hfuel
      obtain ⟨t', hchars', hbytes'⟩ := full_chunk hthree t
      refine ⟨t', ?_, ?_⟩
      · rw [hchars', hchars]
      · rw [hbytes', hbytes, List.take_append_drop]

theorem base64encode_text (data : Bytes) (hne : data ≠ []) :
    ∃ t : Text, t.chars = base64encode data ∧ t.bytes = data :=
  encodeGroups_text data.length data hne le_rfl

theorem encodeGroups_index (fuel : ℕ) (data : Bytes) :
    ∀ g ∈ encodeGroups fuel data, ∀ i ∈ g.1, i ≤ 63 := by
  induction fuel generalizing data with
  | zero => simp [encodeGroups]
  | succ fuel ih =>
    rw [encodeGroups]
    split_ifs with hne
    · simp
    · rw [List.forall_mem_cons]
      refine ⟨?_, ih _⟩
      have hchunk : data.take 3 ≠ [] := by simpa using hne
      obtain ⟨-, -, hv, -⟩ := encodeGroup_chunk _ hchunk (List.length_take_le _ _)
      intro i hi
      exact Nat.le_of_lt_succ (hv i hi)

theorem decode_base64encode (data : Bytes) : decode (base64encode data) = some data := by
  by_cases hne : data = []
  · subst hne
    rfl
  · obtain ⟨t, hchars, hbytes⟩ := base64encode_text data hne
    rw [← hchars, decode_chars, hbytes]

theorem base64encode_length (data : Bytes) :
    (base64encode data).length = 4*((data.length+2)/3) := by
  by_cases hne : data = []
  · subst hne
    rfl
  · obtain ⟨t, hchars, hbytes⟩ := base64encode_text data hne
    have hlen := bytes_length t
    have hp := t.pads_le
    rw [hbytes] at hlen
    rw [← hchars, chars_length]
    omega

theorem base64encode_letters (data : Bytes) :
    ∃ letters, base64encode data = letters ++ List.replicate ((3-data.length % 3) % 3) pad ∧
      Letters letters := by
  by_cases hne : data = []
  · subst hne
    exact ⟨[], rfl, by simp [Letters]⟩
  · obtain ⟨t, hchars, hbytes⟩ := base64encode_text data hne
    have hlen := bytes_length t
    have hp := t.pads_le
    rw [hbytes] at hlen
    have hpads : (3-data.length % 3) % 3 = t.pads := by omega
    refine ⟨_, ?_, letters_groups t⟩
    rw [← hchars, hpads, Text.chars, List.append_assoc]

/-- The text of `base64encode` has four characters for every three bytes or part of
them, letters and then the missing pads; it stands for the data, no two data share it,
and the table is never read beyond its letters. -/
theorem base64encode_standard (data : Bytes) :
    (base64encode data).length = 4*((data.length+2)/3) ∧
      (∃ letters, base64encode data =
        letters ++ List.replicate ((3-data.length % 3) % 3) pad ∧ Letters letters) ∧
      decode (base64encode data) = some data ∧
      (∀ other, base64encode other = base64encode data → other = data) ∧
      ∀ i ∈ tableIndices data, i ≤ 63 := by
  have hindex : ∀ i ∈ tableIndices data, i ≤ 63 := by
    intro i hi
    obtain ⟨g, hg, hmem⟩ := List.mem_flatMap.mp hi
    exact encodeGroups_index _ _ g hg i hmem
  have hinj : ∀ other, base64encode other = base64encode data → other = data := by
    intro other heq
    have hdecode := decode_base64encode other
    rw [heq, decode_base64encode] at hdecode
    exact (Option.some.inj hdecode).symm
  exact ⟨base64encode_length data, base64encode_letters data, decode_base64encode data, hinj,
    hindex⟩

end Encoding

section Rounds

structure Opens (letters : Bytes) (pads : ℕ) (rest src : Bytes) : Prop where
  chars : src = letters ++ (List.replicate pads pad ++ rest)
  valid : Letters letters
  length : letters.length+pads = 4
  pads_le : pads ≤ 2
  final : pads = 0 ∨ rest = []

theorem readChar_letter (g : Group) (c : UInt8) (hg : g.padding = 0) (hc : c ∈ alphabet) :
    readChar g c = some ⟨g.i+1, 0, 64*g.packed+digit c⟩ := by
  have hne : c ≠ 61 := by
    rintro rfl
    exact pad_not_letter hc
  have hpacked : g.packed <<< 6 ||| digit c = 64*g.packed+digit c :=
    shift_or g.packed (digit c) 6 (digit_lt c hc)
  rw [readChar, if_neg hne, hg, if_neg (Nat.lt_irrefl 0), charValue_letter c hc, Option.map_some,
    hpacked]

theorem readChars_letters (cs : Bytes) (g : Group) (hg : g.padding = 0) (hcs : Letters cs) :
    cs.foldlM readChar g =
      some ⟨g.i+cs.length, 0, cs.foldl (fun n c => 64*n+digit c) g.packed⟩ := by
  induction cs generalizing g with
  | nil =>
    obtain ⟨i, padding, packed⟩ := g
    obtain rfl : padding = 0 := hg
    rfl
  | cons c cs ih =>
    obtain ⟨hc, hrest⟩ := (letters_cons c cs).mp hcs
    have hi : g.i+1+cs.length = g.i+(cs.length+1) := by omega
    rw [List.foldlM_cons, readChar_letter g c hg hc, Option.bind_eq_bind, Option.bind_some,
      ih ⟨g.i+1, 0, _⟩ rfl hrest, List.foldl_cons, List.length_cons, hi]

theorem readChars_pads (n : ℕ) (g : Group) :
    (List.replicate n pad).foldlM readChar g =
      some ⟨g.i+n, g.padding+n, g.packed*64^n⟩ := by
  induction n generalizing g with
  | zero => simp
  | succ n ih =>
    have hone : readChar g pad = some ⟨g.i+1, g.padding+1, g.packed <<< 6⟩ := rfl
    have hi : g.i+1+n = g.i+(n+1) := by omega
    have hp : g.padding+1+n = g.padding+(n+1) := by omega
    have hv : g.packed*2^6*64^n = g.packed*64^(n+1) := by
      rw [pow_succ]
      ring
    rw [List.replicate_succ, List.foldlM_cons, hone, Option.bind_eq_bind, Option.bind_some,
      ih, Nat.shiftLeft_eq, hi, hp, hv]

/-- The inner loop goes through letters, and then through pads. -/
theorem readChars_some (cs : Bytes) (g g' : Group) (h : cs.foldlM readChar g = some g') :
    ∃ letters n, cs = letters ++ List.replicate n pad ∧ Letters letters ∧
      (0 < g.padding → letters = []) := by
  induction cs generalizing g with
  | nil => exact ⟨[], 0, rfl, by simp [Letters], fun _ => rfl⟩
  | cons c cs ih =>
    rw [List.foldlM_cons] at h
    obtain ⟨g₁, hc, hcs⟩ := Option.bind_eq_some_iff.mp h
    obtain ⟨letters, n, rfl, hl, hpads⟩ := ih g₁ hcs
    rw [readChar] at hc
    split_ifs at hc with heq hpad
    · obtain rfl : c = pad := heq
      obtain rfl := Option.some.inj hc
      obtain rfl := hpads (Nat.succ_pos _)
      exact ⟨[], n+1, rfl, by simp [Letters], fun _ => rfl⟩
    · obtain ⟨v, hv, -⟩ := Option.map_eq_some_iff.mp hc
      exact ⟨c::letters, n, rfl, (letters_cons c letters).mpr ⟨letter_charValue c v hv, hl⟩,
        fun h => absurd h hpad⟩

theorem readGroup_opens {letters rest src : Bytes} {pads : ℕ} (h : Opens letters pads rest src) :
    readGroup src = some ⟨4, pads, number letters*64^pads⟩ ∧ src.drop 4 = rest := by
  have hlen := h.length
  have hgroup : (letters ++ List.replicate pads pad).length = 4 := by simpa using hlen
  have hsrc : src = letters ++ List.replicate pads pad ++ rest := by
    rw [h.chars, List.append_assoc]
  constructor
  · rw [readGroup, hsrc, List.take_left' hgroup, List.foldlM_append,
      readChars_letters letters _ rfl h.valid, Option.bind_eq_bind, Option.bind_some,
      readChars_pads]
    simp [number, hlen]
  · rw [hsrc, List.drop_left' hgroup]

theorem groupBytes_packed (letters : Bytes) (pads : ℕ) (hp : pads ≤ 2) :
    Group.bytes ⟨4, pads, number letters*64^pads⟩ = groupBytes letters pads := by
  generalize hn : number letters = n
  interval_cases pads
  · simp [Group.bytes, groupBytes, beBytes, leBytes, and_low, Nat.shiftRight_eq_div_pow, hn,
      Nat.div_div_eq_div_mul]
  · have h₁ : n*64/65536 = n/4/256 := by omega
    have h₂ : n*64/256 = n/4 := by omega
    simp [Group.bytes, groupBytes, beBytes, leBytes, and_low, Nat.shiftRight_eq_div_pow, hn, h₁, h₂]
  · have h₁ : n*4096/65536 = n/16 := by omega
    simp [Group.bytes, groupBytes, beBytes, leBytes, and_low, Nat.shiftRight_eq_div_pow, hn, h₁]

theorem decodeGroups_opens {letters rest src : Bytes} {pads : ℕ}
    (h : Opens letters pads rest src) (size fuel : ℕ) (res : Bytes) :
    decodeGroups size (fuel+1) src res =
      (groupBytes letters pads).foldlM (write size) res >>= decodeGroups size fuel rest := by
  obtain ⟨hgroup, hrest⟩ := readGroup_opens h
  have hne : src ≠ [] := by
    rintro rfl
    cases hgroup
  have hfinal : ¬ (0 < pads ∧ rest ≠ []) := by
    rintro ⟨hpos, hmore⟩
    rcases h.final with h' | h'
    · omega
    · exact hmore h'
  rw [decodeGroups, if_neg hne, hgroup]
  simp only [hrest]
  rw [if_neg (by decide), if_neg hfinal, if_neg (Nat.not_lt.mpr h.pads_le),
    groupBytes_packed letters pads h.pads_le]

theorem decodeGroups_refuses {src : Bytes} (hne : src ≠ [])
    (hno : ∀ letters pads rest, ¬ Opens letters pads rest src) (size fuel : ℕ) (res : Bytes) :
    decodeGroups size (fuel+1) src res = .ok [] := by
  rw [decodeGroups, if_neg hne]
  cases hg : readGroup src with
  | none => rfl
  | some g =>
    obtain ⟨letters, n, htake, hl, -⟩ := readChars_some _ _ _ hg
    obtain rfl : g = ⟨letters.length+n, n, number letters*64^n⟩ := by
      rw [readGroup, htake, List.foldlM_append, readChars_letters letters _ rfl hl,
        Option.bind_eq_bind, Option.bind_some, readChars_pads] at hg
      simpa [number] using hg.symm
    simp only
    split_ifs with hfour hmore htwo
    · rfl
    · rfl
    · rfl
    · refine absurd ⟨?_, hl, not_not.mp hfour, Nat.not_lt.mp htwo, ?_⟩ (hno letters n (src.drop 4))
      · rw [← List.append_assoc, ← htake, List.take_append_drop]
      · by_cases hn : n = 0
        · exact Or.inl hn
        · exact Or.inr (not_not.mp fun h => hmore ⟨Nat.pos_of_ne_zero hn, h⟩)

end Rounds

section Grammar

theorem writes_inside (size : ℕ) (bs res : Bytes) (h : res.length+bs.length ≤ size) :
    bs.foldlM (write size) res = .ok (res ++ bs) := by
  induction bs generalizing res with
  | nil => simp [pure, Except.pure]
  | cons b bs ih =>
    rw [List.length_cons] at h
    have hroom : (res ++ [b]).length+bs.length ≤ size := by
      rw [List.length_append, List.length_singleton]
      omega
    have hwrite : write size res b = .ok (res ++ [b]) := if_pos (by omega)
    rw [List.foldlM_cons, hwrite]
    exact (ih _ hroom).trans (by rw [List.append_assoc, List.singleton_append])

theorem text_opens (t : Text) : ∃ letters pads rest, Opens letters pads rest t.chars := by
  obtain ⟨groups, last, pads, hg, hl, hlen, hp⟩ := t
  cases groups with
  | nil => exact ⟨last, pads, [], by simp [Text.chars], hl, hlen, hp, Or.inr rfl⟩
  | cons g groups =>
    obtain ⟨hglen, hgl⟩ := hg g List.mem_cons_self
    exact ⟨g, 0, groups.flatten ++ (last ++ List.replicate pads pad), by simp [Text.chars], hgl,
      hglen, Nat.zero_le 2, Or.inl rfl⟩

theorem opens_length {letters rest src : Bytes} {pads : ℕ} (h : Opens letters pads rest src) :
    src.length = 4+rest.length := by
  have hlen := h.length
  rw [h.chars, List.length_append, List.length_append, List.length_replicate]
  omega

theorem decodeGroups_done (size fuel : ℕ) (res : Bytes) :
    decodeGroups size fuel [] res = .ok res := by
  cases fuel <;> rfl

/-- With room for three bytes a group, the loop is the reference decoder. -/
theorem decodeGroups_decode (size fuel : ℕ) (src res : Bytes) (hf : src.length ≤ fuel)
    (hroom : res.length+3*(src.length/4) ≤ size) :
    decodeGroups size fuel src res = .ok (((decode src).map (res ++ ·)).getD []) := by
  induction fuel generalizing src res with
  | zero =>
    obtain rfl := List.length_eq_zero_iff.mp (Nat.le_zero.mp hf)
    simp [decodeGroups, decode]
  | succ fuel ih =>
    by_cases hne : src = []
    · subst hne
      simp [decodeGroups, decode]
    · by_cases hopens : ∃ letters pads rest, Opens letters pads rest src
      · obtain ⟨letters, pads, rest, h⟩ := hopens
        have hlen := opens_length h
        have hletters := h.length
        have hgroup := groupBytes_length letters pads
        rw [decodeGroups_opens h, writes_inside size _ res (by omega)]
        change decodeGroups size fuel rest (res ++ groupBytes letters pads) = _
        rcases h.final with rfl | rfl
        · have hsrc : src = letters ++ rest := h.chars
          rw [ih rest _ (by omega) (by rw [List.length_append]; omega), hsrc,
            decode_group letters rest hletters h.valid]
          cases decode rest with
          | none => rfl
          | some bs => simp
        · have hsrc : src = letters ++ List.replicate pads pad := by simpa using h.chars
          rw [decodeGroups_done, hsrc, decode_last letters pads h.valid hletters h.pads_le]
          rfl
      · have hno : ∀ letters pads rest, ¬ Opens letters pads rest src :=
          fun letters pads rest h => hopens ⟨letters, pads, rest, h⟩
        rw [decodeGroups_refuses hne hno]
        cases hd : decode src with
        | none => rfl
        | some bs =>
          obtain ⟨t, rfl⟩ := chars_of_decode src bs hd hne
          exact absurd (text_opens t) hopens

theorem base64decode_decode (size : ℕ) (src : Bytes) (hroom : 3*(src.length/4) ≤ size) :
    base64decodeIn size src = .ok ((decode src).getD []) := by
  rw [base64decodeIn, decodeGroups_decode size _ src [] le_rfl (by simpa using hroom)]
  simp

/-- In a buffer with three bytes for every group: the result is not empty exactly for
the non-empty texts, and then it is the packed values of their groups; everything else
gives the empty string. -/
theorem base64decode_grammar (size : ℕ) (src : Bytes) (hroom : 3*(src.length/4) ≤ size) :
    ∃ res, base64decodeIn size src = .ok res ∧
      (res ≠ [] ↔ ∃ t : Text, t.chars = src) ∧
      (∀ t : Text, t.chars = src →
        res = t.bytes ∧ res.length = 3*(t.groups.length+1)-src.count pad) ∧
      ((¬ ∃ t : Text, t.chars = src) → res = []) := by
  have hread := base64decode_decode size src hroom
  have htext : ∀ t : Text, t.chars = src → (decode src).getD [] = t.bytes := by
    rintro t rfl
    rw [decode_chars, Option.getD_some]
  have hother : (¬ ∃ t : Text, t.chars = src) → (decode src).getD [] = [] := by
    intro hno
    by_cases hne : src = []
    · subst hne
      rfl
    · cases hd : decode src with
      | none => rfl
      | some bs => exact absurd (chars_of_decode src bs hd hne) hno
  refine ⟨_, hread, ⟨fun hne => ?_, ?_⟩, ?_, hother⟩
  · by_contra hno
    exact hne (hother hno)
  · rintro ⟨t, ht⟩
    rw [htext t ht]
    exact bytes_ne_nil t
  · intro t ht
    refine ⟨htext t ht, ?_⟩
    rw [htext t ht, bytes_length, ← ht, count_pad]

theorem base64decode_grammar_padded :
    base64decodeIn 6 [84, 87, 70, 117, 84, 81, 61, 61] = .ok [77, 97, 110, 77] ∧
    (∃ t : Text, t.chars = [84, 87, 70, 117, 84, 81, 61, 61]) ∧
    ∀ t : Text, t.chars = [84, 87, 70, 117, 84, 81, 61, 61] →
      [77, 97, 110, 77] = t.bytes ∧ 4 = 3*(t.groups.length+1)-2 := by
  have hread : base64decodeIn 6 [84, 87, 70, 117, 84, 81, 61, 61] = .ok [77, 97, 110, 77] := by
    decide +kernel
  obtain ⟨res, hres, htext, hbytes, -⟩ :=
    base64decode_grammar 6 [84, 87, 70, 117, 84, 81, 61, 61] (by decide)
  obtain rfl : [77, 97, 110, 77] = res := Except.ok.inj (hread.symm.trans hres)
  exact ⟨hread, htext.mp (List.cons_ne_nil _ _), hbytes⟩

end Grammar

section Buffer

/-- `n` groups of four letters, and then one more complete group. -/
def Overfull : ℕ → Bytes → Prop
  | 0, src => ∃ letters pads rest, Opens letters pads rest src
  | n+1, src => ∃ letters rest, Opens letters 0 rest src ∧ Overfull n rest

theorem opens_unique {letters rest letters' rest' src : Bytes} {pads pads' : ℕ}
    (h : Opens letters pads rest src) (h' : Opens letters' pads' rest' src) :
    pads = pads' ∧ rest = rest' := by
  obtain ⟨hg, hrest⟩ := readGroup_opens h
  obtain ⟨hg', hrest'⟩ := readGroup_opens h'
  rw [hg] at hg'
  exact ⟨congrArg Group.padding (Option.some.inj hg'), hrest.symm.trans hrest'⟩

theorem not_overfull_nil (n : ℕ) : ¬ Overfull n [] := by
  have hno : ∀ letters pads rest, ¬ Opens letters pads rest [] := by
    intro letters pads rest h
    have hlen := opens_length h
    rw [List.length_nil] at hlen
    omega
  cases n with
  | zero =>
    rintro ⟨letters, pads, rest, h⟩
    exact hno _ _ _ h
  | succ n =>
    rintro ⟨letters, rest, h, -⟩
    exact hno _ _ _ h

theorem writes_beyond (bs res : Bytes) (hne : bs ≠ []) :
    ∃ i, bs.foldlM (write res.length) res = .error i := by
  cases bs with
  | nil => exact absurd rfl hne
  | cons b bs =>
    have hwrite : write res.length res b = .error res.length := if_neg (Nat.lt_irrefl _)
    rw [List.foldlM_cons, hwrite]
    exact ⟨_, rfl⟩

/-- With room for `n` groups, the writes stay inside unless another group follows them. -/
theorem decodeGroups_inside (n fuel : ℕ) (src res : Bytes) (hf : src.length ≤ fuel) :
    (∃ r, decodeGroups (res.length+3*n) fuel src res = .ok r) ↔ ¬ Overfull n src := by
  induction fuel generalizing n src res with
  | zero =>
    obtain rfl := List.length_eq_zero_iff.mp (Nat.le_zero.mp hf)
    exact iff_of_true ⟨res, rfl⟩ (not_overfull_nil n)
  | succ fuel ih =>
    by_cases hne : src = []
    · subst hne
      exact iff_of_true ⟨res, decodeGroups_done _ _ _⟩ (not_overfull_nil n)
    · by_cases hopens : ∃ letters pads rest, Opens letters pads rest src
      · obtain ⟨letters, pads, rest, h⟩ := hopens
        have hlen := opens_length h
        rw [decodeGroups_opens h]
        cases n with
        | zero =>
          obtain ⟨i, hi⟩ := writes_beyond (groupBytes letters pads) res
            (groupBytes_ne_nil _ _ h.pads_le)
          refine iff_of_false ?_ (not_not.mpr ⟨letters, pads, rest, h⟩)
          rintro ⟨r, hr⟩
          rw [Nat.mul_zero, Nat.add_zero, hi] at hr
          cases hr
        | succ n =>
          have hgroup := groupBytes_length letters pads
          rw [writes_inside _ _ res (by omega)]
          change (∃ r, decodeGroups _ fuel rest (res ++ groupBytes letters pads) = .ok r) ↔ _
          by_cases hp : pads = 0
          · subst hp
            have hsize : res.length+3*(n+1) = (res ++ groupBytes letters 0).length+3*n := by
              rw [List.length_append, hgroup]
              omega
            rw [hsize, ih n rest _ (by omega)]
            apply not_congr
            constructor
            · intro ho
              exact ⟨letters, rest, h, ho⟩
            · rintro ⟨letters', rest', h', ho⟩
              rwa [(opens_unique h h').2]
          · obtain rfl := h.final.resolve_left hp
            refine iff_of_true ⟨_, decodeGroups_done _ _ _⟩ ?_
            rintro ⟨letters', rest', h', -⟩
            exact hp (opens_unique h h').1
      · refine iff_of_true ⟨[], decodeGroups_refuses hne (fun letters pads rest h =>
          hopens ⟨letters, pads, rest, h⟩) _ _ _⟩ ?_
        cases n with
        | zero => exact hopens
        | succ n =>
          rintro ⟨letters, rest, h, -⟩
          exact hopens ⟨letters, 0, rest, h⟩

theorem writes_length (size : ℕ) (bs res r : Bytes) (hres : res.length ≤ size)
    (h : bs.foldlM (write size) res = .ok r) : r.length ≤ size := by
  induction bs generalizing res with
  | nil =>
    obtain rfl : res = r := Except.ok.inj h
    exact hres
  | cons b bs ih =>
    rw [List.foldlM_cons, write] at h
    split_ifs at h with hroom
    · refine ih _ ?_ h
      rw [List.length_append, List.length_singleton]
      omega
    · cases h

theorem decodeGroups_length (size fuel : ℕ) (src res r : Bytes) (hres : res.length ≤ size)
    (h : decodeGroups size fuel src res = .ok r) : r.length ≤ size := by
  induction fuel generalizing src res with
  | zero =>
    obtain rfl : res = r := Except.ok.inj h
    exact hres
  | succ fuel ih =>
    by_cases hne : src = []
    · subst hne
      rw [decodeGroups_done] at h
      obtain rfl := Except.ok.inj h
      exact hres
    · by_cases hopens : ∃ letters pads rest, Opens letters pads rest src
      · obtain ⟨letters, pads, rest, ho⟩ := hopens
        rw [decodeGroups_opens ho] at h
        cases hw : (groupBytes letters pads).foldlM (write size) res with
        | error i =>
          rw [hw] at h
          cases h
        | ok res' =>
          rw [hw] at h
          exact ih rest res' (writes_length size _ res res' hres hw) h
      · rw [decodeGroups_refuses hne fun letters pads rest ho => hopens ⟨letters, pads, rest, ho⟩]
          at h
        obtain rfl := Except.ok.inj h
        exact Nat.zero_le size

/-- The string is as long as 24 bytes: data comes back exactly if it is no longer, and
the writes for a text stay inside exactly if no group follows eight groups of letters. -/
theorem base64decode_buffer_iff (data src : Bytes) :
    (base64decode (base64encode data) = .ok data ↔ data.length ≤ 24) ∧
      ((∃ res, base64decode src = .ok res) ↔ ¬ Overfull 8 src) := by
  constructor
  · constructor
    · intro h
      exact decodeGroups_length 24 _ _ [] data (Nat.zero_le 24) h
    · intro hle
      have hlen := (base64encode_length data)
      have hread := base64decode_decode (stringSize*3/4) (base64encode data) (by
        rw [hlen, stringSize]
        omega)
      rw [base64decode, hread, decode_base64encode, Option.getD_some]
  · exact decodeGroups_inside 8 _ src [] le_rfl

/-- The last of 25 bytes is written behind the string. -/
theorem base64decode_overflows :
    base64decode (base64encode (List.replicate 25 65)) = .error 24 ∧
      ¬ ((∀ data, base64decode (base64encode data) = .ok data) ∧
        ∀ src, ∃ res, base64decode src = .ok res) := by
  have hover : base64decode (base64encode (List.replicate 25 65)) = .error 24 := by decide +kernel
  refine ⟨hover, ?_⟩
  rintro ⟨h, -⟩
  have hback := h (List.replicate 25 65)
  rw [hover] at hback
  cases hback

end Buffer

end Lamb.HashUtil
