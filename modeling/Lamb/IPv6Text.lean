import Lamb.Address
import Lamb.HttpContentLength
import Lamb.Library.GroupText
import Lamb.Library.Separated
import Mathlib.Data.Nat.Digits.Lemmas

/-!
# IPv6Address::insert

Eight groups are written from the front. A run of zeros is held back until the group behind
it is known. One flag says that a run has been left out, after which zeros are written.
-/

set_option autoImplicit false

namespace Lamb.IPv6Text
open Lamb.ByteString Lamb.Http Lamb.PercentCoding Lamb.GroupText Lamb.Address
open Lamb.HttpResponseDump Lamb.HttpContentLength Lamb.Separated

def hexLetter (v : ℕ) : UInt8 := UInt8.ofNat (if v < 10 then 48+v else 87+v)

/-- A number as an output stream writes it under `std::hex`. -/
def hex (n : ℕ) : Bytes := if n = 0 then [48] else ((Nat.digits 16 n).map hexLetter).reverse

/-- The `uint16_t` at place `i` of the array that overlays the bytes. -/
def word (little : Bool) (a : Vector UInt8 16) (i : Fin 8) : BitVec 16 :=
  if little then a[2*i.val+1].toBitVec ++ a[2*i.val].toBitVec
  else a[2*i.val].toBitVec ++ a[2*i.val+1].toBitVec

structure Printer where
  os : Bytes
  usedZeros : Bool
  deriving DecidableEq

def step (little : Bool) (addr : Fin 8 → BitVec 16) (s : Printer) (i : Fin 8) : Printer :=
  if addr i = 0 ∧ !s.usedZeros then s
  else
    let s := if 0 < i.val ∧ addr (i-1) = 0 ∧ !s.usedZeros then
        { os := s.os ++ ascii ":", usedZeros := true }
      else s
    let s := if 0 < i.val then { s with os := s.os ++ ascii ":" } else s
    { s with os := s.os ++ hex (byteswapOnLittleEndian little (addr i)).toNat }

/-- `IPv6Address::insert` into a stream that writes decimal numbers. -/
def insert (little : Bool) (mAddr : SockaddrIn6) : Bytes :=
  let addr := word little mAddr.s6Addr
  let s := (List.finRange 8).foldl (step little addr) { os := ascii "[", usedZeros := false }
  let os := if !s.usedZeros ∧ addr 7 = 0 then s.os ++ ascii "::" else s.os
  os ++ ascii "]:" ++ decimal (byteswapOnLittleEndian little mAddr.sin6Port).toNat

def getPort (little : Bool) (mAddr : SockaddrIn6) : ℕ :=
  (byteswapOnLittleEndian little mAddr.sin6Port).toNat

/-- The groups of an address, each with its first byte as the high one. -/
def groups (a : Vector UInt8 16) : List ℕ :=
  (List.finRange 8).map fun i => a[2*i.val].toNat*256+a[2*i.val+1].toNat

section Numerals

theorem hexValue_hexLetter : ∀ v < 16, hexValue (hexLetter v) = some v := by decide

theorem hexLetter_bracket : ∀ v < 16, hexLetter v ≠ 93 := by decide

theorem readDigits_letters (ds : List ℕ) (hds : ∀ d ∈ ds, d < 16) (n : ℕ) :
    readDigits (ds.map hexLetter) n = some (ds.foldl (fun a d => a*16+d) n) := by
  induction ds generalizing n with
  | nil => rfl
  | cons d ds ih =>
    rw [readDigits, List.map_cons, List.foldlM_cons, hexValue_hexLetter d (hds d (.head ds))]
    exact ih (fun e he => hds e (.tail d he)) _

theorem digit_lt {n d : ℕ} (h : d ∈ (Nat.digits 16 n).reverse) : d < 16 :=
  Nat.digits_lt_base (by decide) (List.mem_reverse.mp h)

theorem readGroup_hex {n : ℕ} (h : n < 65536) : readGroup (hex n) = some n := by
  by_cases hn : n = 0
  · rw [hn]
    decide
  · have hlen : (Nat.digits 16 n).length ≤ 4 := (Nat.digits_length_le_iff (by decide) n).mpr h
    have hne : Nat.digits 16 n ≠ [] := Nat.digits_ne_nil_iff_ne_zero.mpr hn
    have hhex : hex n = (Nat.digits 16 n).reverse.map hexLetter := by
      rw [hex, if_neg hn, List.map_reverse]
    rw [readGroup, hhex, if_neg, readDigits_letters _ (fun d hd => digit_lt hd), digits_value]
    rintro (hnil | hlong)
    · exact hne (by simpa using hnil)
    · rw [List.length_map, List.length_reverse] at hlong
      omega

theorem hex_bracket (n : ℕ) : (93 : UInt8) ∉ hex n := by
  rw [hex]
  split_ifs with hn
  · decide
  · rw [← List.map_reverse, List.mem_map]
    rintro ⟨d, hd, heq⟩
    exact hexLetter_bracket d (digit_lt hd) heq

theorem reads_hex (gs : List ℕ) (h : ∀ g ∈ gs, g < 65536) : Reads (gs.map hex) gs := by
  rw [Reads, List.forall₂_map_left_iff, List.forall₂_same]
  intro g hg
  exact readGroup_hex (h g hg)

end Numerals

section Groups

variable (little : Bool) (a : Vector UInt8 16)

def value (i : Fin 8) : ℕ := a[2*i.val].toNat*256+a[2*i.val+1].toNat

theorem value_lt (i : Fin 8) : value a i < 65536 := by
  have hhigh := a[2*i.val].toNat_lt
  have hlow := a[2*i.val+1].toNat_lt
  rw [value]
  omega

theorem word_value (i : Fin 8) :
    (byteswapOnLittleEndian little (word little a i)).toNat = value a i := by
  cases little with
  | false => exact BitMask.toNat_append _ _
  | true =>
    rw [byteswapOnLittleEndian, if_pos rfl, word, if_pos rfl, BitMask.swapBytes_append]
    exact BitMask.toNat_append _ _

theorem word_zero_iff (i : Fin 8) : word little a i = 0 ↔ value a i = 0 := by
  have hzero : byteswapOnLittleEndian little (0 : BitVec 16) = 0 := by cases little <;> decide
  rw [← word_value little]
  constructor
  · intro h
    rw [h, hzero]
    rfl
  · intro h
    have hswap : byteswapOnLittleEndian little (word little a i) = 0 := BitVec.eq_of_toNat_eq h
    rw [← byteswap_byteswap little (word little a i) (by decide), hswap, hzero]

end Groups

/-- What the loop has written for the groups so far: they end in a run of zeros that is held
back, or a run has been left out and all groups behind it are written. -/
inductive Printed : List ℕ → Printer → Prop
  | held {l : List ℕ} {z : ℕ} (h : 0 ∉ l) : Printed (l ++ List.replicate z 0)
      { os := ascii "[" ++ joined (l.map hex), usedZeros := false }
  | omitted {l rs : List ℕ} {z : ℕ} (hz : 0 < z) (hrs : rs ≠ []) :
      Printed (l ++ List.replicate z 0 ++ rs)
        { os := ascii "[" ++ (joined (l.map hex) ++ [colon, colon] ++ joined (rs.map hex))
          usedZeros := true }

section Loop

variable {little : Bool} {addr : Fin 8 → BitVec 16} {gs : List ℕ} {s : Printer} {i : Fin 8} {g : ℕ}

theorem ascii_colon : ascii ":" = [colon] := rfl

theorem joined_concat {parts : List Bytes} (h : parts ≠ []) (part : Bytes) :
    joined (parts ++ [part]) = joined parts ++ (ascii ":" ++ part) := by
  rw [joined_append h (List.cons_ne_nil _ _), ascii_colon]
  simp [joined, List.intercalate]

theorem step_skip (hzero : addr i = 0) (hused : s.usedZeros = false) :
    step little addr s i = s := by
  rw [step, if_pos ⟨hzero, by simp [hused]⟩]

theorem step_first (hi : i.val = 0) (hg : addr i ≠ 0) : step little addr s i =
    { s with os := s.os ++ hex (byteswapOnLittleEndian little (addr i)).toNat } := by
  rw [step, if_neg (fun h => hg h.1)]
  simp [hi]

theorem step_next (hi : 0 < i.val) (hg : ¬(addr i = 0 ∧ s.usedZeros = false))
    (hbefore : ¬(addr (i-1) = 0 ∧ s.usedZeros = false)) : step little addr s i =
      { s with os := s.os ++ ascii ":" ++ hex (byteswapOnLittleEndian little (addr i)).toNat } := by
  rw [step, if_neg (by simpa using hg)]
  have hrun : ¬(0 < i.val ∧ addr (i-1) = 0 ∧ (!s.usedZeros) = true) := fun h =>
    hbefore ⟨h.2.1, by simpa using h.2.2⟩
  simp only [if_neg hrun, if_pos hi]

theorem step_run (hi : 0 < i.val) (hg : addr i ≠ 0) (hbefore : addr (i-1) = 0)
    (hused : s.usedZeros = false) : step little addr s i =
      { os := s.os ++ ascii ":" ++ ascii ":" ++
          hex (byteswapOnLittleEndian little (addr i)).toNat
        usedZeros := true } := by
  rw [step, if_neg (fun h => hg h.1)]
  have hrun : 0 < i.val ∧ addr (i-1) = 0 ∧ (!s.usedZeros) = true := ⟨hi, hbefore, by simp [hused]⟩
  simp only [if_pos hrun, if_pos hi]

theorem step_printed (h : Printed gs s) (hlen : gs.length = i.val)
    (hvalue : (byteswapOnLittleEndian little (addr i)).toNat = g) (hzero : addr i = 0 ↔ g = 0)
    (hbefore : 0 < i.val → (addr (i-1) = 0 ↔ gs.getLast? = some 0)) :
    Printed (gs ++ [g]) (step little addr s i) := by
  cases h with
  | @held l z hl =>
    by_cases hg : g = 0
    · rw [step_skip (hzero.mpr hg) rfl, hg, List.append_assoc, ← List.replicate_succ']
      exact Printed.held hl
    · have hne : addr i ≠ 0 := fun h => hg (hzero.mp h)
      cases z with
      | zero =>
        rw [List.replicate_zero, List.append_nil] at hlen hbefore ⊢
        have hmem : 0 ∉ l ++ [g] := by simp [hl, Ne.symm hg]
        have hgoal := Printed.held (z := 0) hmem
        rw [List.replicate_zero, List.append_nil, List.map_append, List.map_singleton] at hgoal
        cases l with
        | nil =>
          rw [step_first hlen.symm hne, hvalue]
          simpa [joined, List.intercalate] using hgoal
        | cons x xs =>
          have hi : 0 < i.val := by
            rw [← hlen]
            exact Nat.succ_pos _
          have hlast : ¬(addr (i-1) = 0 ∧ false = false) := fun h =>
            hl (List.mem_of_getLast? ((hbefore hi).mp h.1))
          rw [joined_concat (by simp)] at hgoal
          rw [step_next hi (fun h => hne h.1) hlast, hvalue]
          simpa using hgoal
      | succ z =>
        have hi : 0 < i.val := by
          rw [← hlen, List.length_append, List.length_replicate]
          omega
        have hprev : addr (i-1) = 0 := (hbefore hi).mpr (by
          rw [List.replicate_succ', ← List.append_assoc, List.getLast?_concat])
        have hgoal := @Printed.omitted l [g] (z+1) (Nat.succ_pos z) (List.cons_ne_nil _ _)
        rw [step_run hi hne hprev rfl, hvalue]
        simpa [joined, List.intercalate, ascii_colon] using hgoal
  | @omitted l rs z hz hrs =>
    have hi : 0 < i.val := by
      rw [← hlen, List.length_append, List.length_append, List.length_replicate]
      omega
    have hgoal := @Printed.omitted l (rs ++ [g]) z hz (by simp)
    rw [List.map_append, List.map_singleton, joined_concat (by simpa using hrs)] at hgoal
    rw [step_next hi (by simp) (by simp), hvalue, List.append_assoc]
    simpa using hgoal

end Loop

section Text

variable (little : Bool) (a : Vector UInt8 16)

theorem groups_take {n : ℕ} (h : n < 8) :
    (groups a).take (n+1) = (groups a).take n ++ [value a ⟨n, h⟩] := by
  rw [← List.take_append_getElem (by simpa [groups] using h)]
  simp [groups, value]

theorem loop_printed (n : ℕ) (hn : n ≤ 8) : Printed ((groups a).take n)
    (((List.finRange 8).take n).foldl (step little (word little a))
      { os := ascii "[", usedZeros := false }) := by
  induction n with
  | zero => exact Printed.held (l := []) (z := 0) List.not_mem_nil
  | succ n ih =>
    have hlen : ((groups a).take n).length = n := by
      simp [groups]
      omega
    have hfin : (List.finRange 8).take (n+1) = (List.finRange 8).take n ++ [⟨n, hn⟩] := by
      rw [← List.take_append_getElem (by simpa using hn)]
      simp
    rw [groups_take a hn, hfin, List.foldl_append]
    apply step_printed (ih (by omega)) hlen (word_value little a _) (word_zero_iff little a _)
    intro hi
    obtain ⟨m, rfl⟩ : ∃ m, n = m+1 := Nat.exists_eq_add_one.mpr hi
    have hprev : (⟨m+1, hn⟩ : Fin 8)-1 = ⟨m, by omega⟩ := by
      apply Fin.ext
      rw [Fin.sub_def]
      simp
      omega
    rw [hprev, groups_take a (by omega : m < 8), List.getLast?_concat, Option.some_inj]
    exact word_zero_iff little a _

theorem joined_bracket (l : List ℕ) : (93 : UInt8) ∉ joined (l.map hex) := by
  intro h
  rcases mem_joined h with hcolon | ⟨part, hpart, hc⟩
  · exact absurd hcolon (by decide)
  · obtain ⟨n, -, rfl⟩ := List.mem_map.mp hpart
    exact hex_bracket n hc

/-- The text of all groups, with the run of zeros at the end that is still held back. -/
theorem printed_text {gs : List ℕ} {s : Printer} (h : Printed gs s) (hlen : gs.length = 8)
    (hlt : ∀ g ∈ gs, g < 65536) {last : Prop} [Decidable last]
    (hlast : last ↔ gs.getLast? = some 0) :
    ∃ t, (if !s.usedZeros ∧ last then s.os ++ ascii "::" else s.os) = ascii "[" ++ t ∧
      Denotes t gs ∧ (93 : UInt8) ∉ t := by
  cases h with
  | @held l z hl =>
    have hreads : Reads (l.map hex) l := reads_hex l fun g hg => hlt g (List.mem_append_left _ hg)
    cases z with
    | zero =>
      rw [List.replicate_zero, List.append_nil] at hlen hlast ⊢
      have hno : ¬last := fun h => hl (List.mem_of_getLast? (hlast.mp h))
      exact ⟨joined (l.map hex), by simp [hno], Denotes.full hreads hlen, joined_bracket l⟩
    | succ z =>
      have hyes : last := hlast.mpr (by
        rw [List.replicate_succ', ← List.append_assoc, List.getLast?_concat])
      have hz : z+1 = 8-(l.length+0) := by simp at hlen; omega
      refine ⟨joined (l.map hex) ++ [colon, colon] ++ joined [], ?_, ?_, ?_⟩
      · simp [hyes, joined]
        rfl
      · have hd := Denotes.compressed hreads (List.Forall₂.nil : Reads [] [])
          (by simp at hlen ⊢; omega)
        rwa [List.append_nil, List.length_nil, ← hz] at hd
      · simpa [joined, joined_bracket, colon] using joined_bracket l
  | @omitted l rs z hz hrs =>
    have hl : Reads (l.map hex) l := reads_hex l fun g hg => hlt g (by simp [hg])
    have hr : Reads (rs.map hex) rs := reads_hex rs fun g hg => hlt g (by simp [hg])
    have hcount : z = 8-(l.length+rs.length) := by simp at hlen; omega
    refine ⟨joined (l.map hex) ++ [colon, colon] ++ joined (rs.map hex), by simp, ?_, ?_⟩
    · rw [hcount]
      exact Denotes.compressed hl hr (by omega)
    · simp [joined_bracket, colon]

theorem insert_text (mAddr : SockaddrIn6) : ∃ t, insert little mAddr =
      ascii "[" ++ t ++ ascii "]:" ++ decimal (getPort little mAddr) ∧
    Denotes t (groups mAddr.s6Addr) ∧ (93 : UInt8) ∉ t := by
  have hlen : (groups mAddr.s6Addr).length = 8 := by simp [groups]
  have hloop := loop_printed little mAddr.s6Addr 8 (le_refl 8)
  rw [List.take_of_length_le (by omega), List.take_of_length_le (by simp)] at hloop
  have hlt : ∀ g ∈ groups mAddr.s6Addr, g < 65536 := by
    intro g hg
    obtain ⟨i, -, rfl⟩ := List.mem_map.mp hg
    exact value_lt mAddr.s6Addr i
  have hlast : word little mAddr.s6Addr 7 = 0 ↔ (groups mAddr.s6Addr).getLast? = some 0 := by
    have htake := groups_take mAddr.s6Addr (by omega : 7 < 8)
    rw [List.take_of_length_le (by omega)] at htake
    rw [htake, List.getLast?_concat, Option.some_inj]
    exact word_zero_iff little mAddr.s6Addr 7
  obtain ⟨t, ht, hdenotes, hbracket⟩ := printed_text hloop hlen hlt hlast
  exact ⟨t, by rw [insert, ht]; rfl, hdenotes, hbracket⟩

theorem groups_injective {a b : Vector UInt8 16} (h : groups a = groups b) : a = b := by
  have hvalue : ∀ i : Fin 8, value a i = value b i := fun i =>
    List.map_inj_left.mp h i (List.mem_finRange i)
  have hpair : ∀ i : Fin 8, a[2*i.val] = b[2*i.val] ∧ a[2*i.val+1] = b[2*i.val+1] := by
    intro i
    have heq := hvalue i
    have ha := a[2*i.val+1].toNat_lt
    have hb := b[2*i.val+1].toNat_lt
    simp only [value] at heq
    exact ⟨UInt8.toNat_inj.mp (by omega), UInt8.toNat_inj.mp (by omega)⟩
  apply Vector.ext
  intro j hj
  rcases Nat.even_or_odd' j with ⟨i, rfl | rfl⟩
  · exact (hpair ⟨i, by omega⟩).1
  · exact (hpair ⟨i, by omega⟩).2

theorem decimal_injective {m n : ℕ} (h : decimal m = decimal n) : m = n := by
  have := congrArg readNumber h
  rwa [readNumber_decimal, readNumber_decimal, Option.some_inj] at this

theorem insert_injective {x y : SockaddrIn6} (h : insert little x = insert little y) :
    x.s6Addr = y.s6Addr ∧ getPort little x = getPort little y := by
  obtain ⟨t, ht, hx, hbracket⟩ := insert_text little x
  obtain ⟨u, hu, hy, hbracket'⟩ := insert_text little y
  have hform : ∀ (v : Bytes) (n : ℕ), ascii "[" ++ v ++ ascii "]:" ++ decimal n =
      91::(v ++ 93::(58::decimal n)) := by
    intro v n
    rw [show ascii "[" = [91] from rfl, show ascii "]:" = [93, 58] from rfl]
    simp
  rw [ht, hu, hform, hform, List.cons_inj_right] at h
  have htext := congrArg (List.takeWhile (· ≠ (93 : UInt8))) h
  rw [takeWhile_append hbracket, takeWhile_append hbracket'] at htext
  subst htext
  have hport := List.append_cancel_left h
  rw [List.cons_inj_right, List.cons_inj_right] at hport
  exact ⟨groups_injective (hx.unique hy), decimal_injective hport⟩

end Text

/-- The text is an address in brackets in front of the decimal port. The address text denotes
the groups and nothing else, so that the text tells addresses and ports apart. -/
theorem insert_faithful (little : Bool) :
    (∀ mAddr : SockaddrIn6, ∃ t, insert little mAddr =
        ascii "[" ++ t ++ ascii "]:" ++ decimal (getPort little mAddr) ∧
      ∀ gs, Denotes t gs ↔ gs = groups mAddr.s6Addr) ∧
    (∀ x y : SockaddrIn6, insert little x = insert little y →
      x.s6Addr = y.s6Addr ∧ getPort little x = getPort little y) := by
  constructor
  · intro mAddr
    obtain ⟨t, ht, hdenotes, -⟩ := insert_text little mAddr
    refine ⟨t, ht, fun gs => ⟨fun h => h.unique hdenotes, ?_⟩⟩
    rintro rfl
    exact hdenotes
  · intro x y h
    exact insert_injective little h

end Lamb.IPv6Text
