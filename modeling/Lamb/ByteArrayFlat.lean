import Lamb.ByteArrayCalls

/-!
# The byte array as a flat buffer with a cursor

The abstract buffer is one byte string and a position. Writing overwrites from
the position and extends the string at its end. The chunked array simulates the
buffer call by call for every block size, so that no sequence of calls can tell
two block sizes apart.
-/

set_option autoImplicit false

namespace Lamb.ByteArray
open Lamb.ByteString Lamb.Blocks

inductive Plain where
  | write (buf : Bytes)
  | read (size : ℕ)
  | setPosition (v : ℕ)
  | clear
  | toString

def Plain.call : Plain → Call
  | .write buf => .write buf
  | .read size => .read size
  | .setPosition v => .setPosition v
  | .clear => .clear
  | .toString => .toString

structure Answer where
  result : Except Stop Value
  position : ℕ
  size : ℕ
  readSize : ℕ

def answerOf : EStateM.Result Stop ByteArray Value → Answer × ByteArray
  | .ok v t => (⟨.ok v, t.getPosition, t.getSize, t.getReadSize⟩, t)
  | .error e t => (⟨.error e, t.getPosition, t.getSize, t.getReadSize⟩, t)

def plainStep (maxString : ℕ) (p : Plain) (s : ByteArray) : Answer × ByteArray :=
  answerOf (p.call.run maxString s)

def answers (maxString : ℕ) : List Plain → ByteArray → List Answer
  | [], _ => []
  | p::ps, s => (plainStep maxString p s).1::answers maxString ps (plainStep maxString p s).2

/-- Reads ask for at least one byte, positions stay within the current size and
buffers lie in memory. -/
def Plain.Legal (size : ℕ) : Plain → Prop
  | .write buf => buf.length < 2^53
  | .read n => 1 ≤ n
  | .setPosition v => v ≤ size
  | .clear => True
  | .toString => True

instance (size : ℕ) : (p : Plain) → Decidable (p.Legal size)
  | .write buf => inferInstanceAs (Decidable (buf.length < 2^53))
  | .read n => inferInstanceAs (Decidable (1 ≤ n))
  | .setPosition v => inferInstanceAs (Decidable (v ≤ size))
  | .clear => inferInstanceAs (Decidable True)
  | .toString => inferInstanceAs (Decidable True)

def LegalRun (maxString : ℕ) : List Plain → ByteArray → Prop
  | [], _ => True
  | p::ps, s => p.Legal s.getSize ∧ LegalRun maxString ps (plainStep maxString p s).2

structure Flat where
  bytes : Bytes
  pos : ℕ

def Flat.answer (f : Flat) (result : Except Stop Value) : Answer × Flat :=
  (⟨result, f.pos, f.bytes.length, f.bytes.length-f.pos⟩, f)

def Flat.step (f : Flat) : Plain → Answer × Flat
  | .write buf => Flat.answer ⟨overwrite f.bytes f.pos buf, f.pos+buf.length⟩ (.ok .unit)
  | .read n =>
    if f.bytes.length < f.pos+n then f.answer (.error .outOfRange)
    else Flat.answer ⟨f.bytes, f.pos+n⟩ (.ok (.bytes (segment f.bytes f.pos n)))
  | .setPosition v => Flat.answer ⟨f.bytes, v⟩ (.ok .unit)
  | .clear => Flat.answer ⟨[], 0⟩ (.ok .unit)
  | .toString => f.answer (.ok (.bytes (f.bytes.drop f.pos)))

def Flat.answers : List Plain → Flat → List Answer
  | [], _ => []
  | p::ps, f => (f.step p).1::Flat.answers ps (f.step p).2

structure Represents (s : ByteArray) (f : Flat) : Prop where
  inv : Inv s
  content_eq : s.content = f.bytes
  position_eq : s.position = f.pos

theorem Represents.size_eq {s : ByteArray} {f : Flat} (h : Represents s f) :
    s.size = f.bytes.length := by
  rw [← h.content_eq, h.inv.content_length]

theorem Represents.answer_ok {t : ByteArray} {f : Flat} (h : Represents t f) (v : Value) :
    answerOf (.ok v t) = ((f.answer (.ok v)).1, t) := by
  simp only [answerOf, Flat.answer, getPosition, getSize, getReadSize, h.position_eq, h.size_eq]

theorem Represents.answer_error {t : ByteArray} {f : Flat} (h : Represents t f) (e : Stop) :
    answerOf (.error e t) = ((f.answer (.error e)).1, t) := by
  simp only [answerOf, Flat.answer, getPosition, getSize, getReadSize, h.position_eq, h.size_eq]

/-- One legal call gives the answer of the flat buffer and stays in step with it. -/
theorem step_represents (maxString : ℕ) (s : ByteArray) (f : Flat) (h : Represents s f)
    (p : Plain) (hp : p.Legal s.getSize) :
    (plainStep maxString p s).1 = (f.step p).1 ∧
      Represents (plainStep maxString p s).2 (f.step p).2 := by
  have hi := h.inv
  have hsz := h.size_eq
  have hpos := h.position_eq
  have hple := hi.position_le
  cases p with
  | write buf =>
    obtain ⟨t, ht, hw⟩ := write_ok s hi buf hp
    have hr : Represents t ⟨overwrite f.bytes f.pos buf, f.pos+buf.length⟩ :=
      ⟨hw.inv, by rw [hw.content_eq, h.content_eq, hpos], by rw [hw.position_eq, hpos]⟩
    have hrun : plainStep maxString (.write buf) s = answerOf (.ok .unit t) :=
      congrArg answerOf (bind_ok ht)
    rw [hrun, hr.answer_ok]
    exact ⟨rfl, hr⟩
  | read n =>
    have hn : 1 ≤ n := hp
    have hgr : s.getReadSize = f.bytes.length-f.pos := by
      rw [getReadSize, hsz, hpos]
    rw [hsz, hpos] at hple
    by_cases hshort : f.bytes.length < f.pos+n
    · have hrun : plainStep maxString (.read n) s = answerOf (.error .outOfRange s) := by
        have he := read_short s n (by omega)
        rw [plainStep, Plain.call, Call.run, map_eq_bind, bind_error he]
      have hflat : f.step (.read n) = f.answer (.error .outOfRange) := if_pos hshort
      rw [hrun, h.answer_error, hflat]
      exact ⟨rfl, h⟩
    · have hrun : plainStep maxString (.read n) s =
          answerOf (.ok (.bytes (s.unread.take n)) (s.advance n)) := by
        have he := read_ok s hi n hn (by omega)
        rw [plainStep, Plain.call, Call.run, map_eq_bind, bind_ok he]
        rfl
      have hr : Represents (s.advance n) ⟨f.bytes, f.pos+n⟩ :=
        ⟨advance_inv s hi n (by omega), h.content_eq, by rw [advance, hpos]⟩
      have hseg : s.unread.take n = segment f.bytes f.pos n := by
        rw [unread, h.content_eq, hpos, Blocks.segment]
      have hflat : f.step (.read n) =
          Flat.answer ⟨f.bytes, f.pos+n⟩ (.ok (.bytes (segment f.bytes f.pos n))) :=
        if_neg hshort
      rw [hrun, hr.answer_ok, hflat, hseg]
      exact ⟨rfl, hr⟩
  | setPosition v =>
    have hv : v ≤ s.size := hp
    obtain ⟨hok, hinv⟩ := setPosition_ok s hi v (le_trans hv hi.size_le)
    have hr : Represents (s.moved v) ⟨f.bytes, v⟩ := by
      refine ⟨hinv, ?_, rfl⟩
      rw [← h.content_eq, content, content, moved, Nat.max_eq_left hv]
    have hrun : plainStep maxString (.setPosition v) s = answerOf (.ok .unit (s.moved v)) :=
      congrArg answerOf (bind_ok hok)
    rw [hrun, hr.answer_ok]
    exact ⟨rfl, hr⟩
  | clear =>
    have hr : Represents s.cleared ⟨[], 0⟩ := ⟨cleared_inv s hi, by simp [content, cleared], rfl⟩
    have hrun : plainStep maxString .clear s = answerOf (.ok .unit s.cleared) := rfl
    rw [hrun, hr.answer_ok]
    exact ⟨rfl, hr⟩
  | toString =>
    have hrun : plainStep maxString .toString s = answerOf (.ok (.bytes s.unread) s) := by
      have ho : observe ByteArray.toString s = .ok s.unread s := by
        rw [observe, toString_ok s hi]
      rw [plainStep, Plain.call, Call.run, map_eq_bind, bind_ok ho]
      rfl
    rw [hrun, h.answer_ok, unread, h.content_eq, hpos]
    exact ⟨rfl, h⟩

theorem answers_flat (maxString : ℕ) (ps : List Plain) (s : ByteArray) (f : Flat)
    (h : Represents s f) (hl : LegalRun maxString ps s) :
    answers maxString ps s = f.answers ps := by
  induction ps generalizing s f with
  | nil => rfl
  | cons p ps ih =>
    obtain ⟨hans, hrep⟩ := step_represents maxString s f h p hl.1
    rw [answers, Flat.answers, hans, ih _ _ hrep hl.2]

theorem legalRun_congr (maxString : ℕ) (ps : List Plain) (s t : ByteArray) (f : Flat)
    (hs : Represents s f) (ht : Represents t f) (hl : LegalRun maxString ps s) :
    LegalRun maxString ps t := by
  induction ps generalizing s t f with
  | nil => trivial
  | cons p ps ih =>
    have hsize : t.getSize = s.getSize := by
      rw [getSize, getSize, hs.size_eq, ht.size_eq]
    have hp : p.Legal t.getSize := hsize ▸ hl.1
    exact ⟨hp, ih _ _ _ (step_represents maxString s f hs p hl.1).2
      (step_represents maxString t f ht p hp).2 hl.2⟩

theorem create_represents (raw : ℕ → ℕ → UInt8) (b : ℕ) (hb : 0 < b) :
    Represents (create raw b) ⟨[], 0⟩ := ⟨create_inv raw b hb, by simp [content, create], rfl⟩

/-- Two byte arrays of any block sizes answer every legal sequence of calls alike,
and as the flat buffer does. -/
theorem flat_refinement (maxString b₁ b₂ : ℕ) (h₁ : 1 ≤ b₁) (h₂ : 1 ≤ b₂)
    (raw₁ raw₂ : ℕ → ℕ → UInt8) (ps : List Plain)
    (hl : LegalRun maxString ps (create raw₁ b₁)) :
    answers maxString ps (create raw₁ b₁) = answers maxString ps (create raw₂ b₂) ∧
      answers maxString ps (create raw₁ b₁) = Flat.answers ps ⟨[], 0⟩ := by
  have hr₁ := create_represents raw₁ b₁ h₁
  have hr₂ := create_represents raw₂ b₂ h₂
  have ha₁ := answers_flat maxString ps _ _ hr₁ hl
  have ha₂ := answers_flat maxString ps _ _ hr₂ (legalRun_congr maxString ps _ _ _ hr₁ hr₂ hl)
  exact ⟨ha₁.trans ha₂.symm, ha₁⟩

theorem flat_refinement_overwrite :
    (answers 100 [.write [1, 2, 3], .setPosition 1, .write [9], .toString]
        (create (fun _ _ => 0) 1)).map Answer.readSize = [0, 2, 1, 1] ∧
      answers 100 [.write [1, 2, 3], .setPosition 1, .write [9], .toString]
        (create (fun _ _ => 0) 1) =
      answers 100 [.write [1, 2, 3], .setPosition 1, .write [9], .toString]
        (create (fun _ _ => 0) 4) := by
  have h := flat_refinement 100 1 4 (by decide) (by decide) (fun _ _ => 0) (fun _ _ => 0)
    [.write [1, 2, 3], .setPosition 1, .write [9], .toString]
    ⟨by decide, by decide, by decide, trivial, trivial⟩
  exact ⟨by rw [h.2]; rfl, h.1⟩

end Lamb.ByteArray
