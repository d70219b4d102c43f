import Lamb.Library.ByteString
import Lamb.Library.Simulation
import Mathlib.Data.List.TakeDrop

/-!
# FileLogAppender

The appender opens its file again when three seconds have gone by, so that it follows the name to
another file once somebody has moved the old one away. An open that fails is tried again. A write
that fails is for ever: a stream that has failed is not closed, and a stream that is not closed does
not open.
-/

set_option autoImplicit false

namespace Lamb.FileLog
open Lamb.Runs Lamb.ByteString

/-- A `std::ofstream`: the file that it has open, and whether `operator bool` is false. -/
structure FileStream where
  file : Option ℕ
  failed : Bool

def FileStream.close (stream : FileStream) : FileStream where
  file := none
  failed := stream.failed || stream.file.isNone

/-- The time of an event and the text that the formatter makes of it, which ends with `%n` and is
flushed. -/
structure Event where
  time : UInt64
  text : Bytes

structure Entry where
  file : ℕ
  event : Event
  taken : Bytes

/-- The appender and the disk. `named` is the file under `m_filename`, `files` the number of files
so far, and `entries` records what has been written. -/
structure System where
  stream : FileStream
  lastTime : UInt64
  reopenError : Bool
  named : Option ℕ
  files : ℕ
  content : ℕ → Bytes
  entries : List Entry

/-- `reopen`. The kernel is asked only by a stream that is not open, and `opens` is its answer. -/
def System.reopen (opens : Bool) (s : System) : System :=
  let stream := if s.stream.failed then s.stream else s.stream.close
  let file := s.named.getD s.files
  if stream.file.isNone && opens then
    { s with
      stream := ⟨some file, false⟩
      reopenError := false
      named := some file
      files := if s.named.isNone then s.files+1 else s.files }
  else { s with
    stream := { stream with failed := true }
    reopenError := true }

/-- `format` into the stream. A stream takes nothing once it has failed, and fails when the kernel
does not take all of the text, of which `taken` bytes have reached the file. -/
def System.write (event : Event) (taken : ℕ) (s : System) : System :=
  match s.stream.file with
  | none => s
  | some file =>
    if s.stream.failed then s
    else { s with
      stream := ⟨some file, decide (taken < event.text.length)⟩
      content := Function.update s.content file (s.content file ++ event.text.take taken)
      entries := s.entries ++ [⟨file, event, event.text.take taken⟩] }

def System.due (event : Event) (s : System) : Bool := decide (s.lastTime+3 ≤ event.time)

/-- `FileLogAppender::log`. -/
def System.log (event : Event) (opens : Bool) (taken : ℕ) (s : System) : System :=
  let s := if s.due event then { s.reopen opens with lastTime := event.time } else s
  if s.reopenError then s else s.write event taken

def System.new (named : Option ℕ) (files : ℕ) (content : ℕ → Bytes) (opens : Bool) : System :=
  System.reopen opens
    { stream := ⟨none, false⟩
      lastTime := 0
      reopenError := false
      named := named
      files := files
      content := content
      entries := [] }

inductive Action where
  | log (event : Event) (opens : Bool) (taken : ℕ)
  | rename (named : Option ℕ)

def next (s : System) : Action → Option System
  | .log event opens taken => some (s.log event opens taken)
  | .rename named => if named.all (· < s.files) then some { s with named := named } else none

/-! ## What a call does -/

def System.broken (s : System) : Bool := s.stream.failed && s.stream.file.isSome

structure Ready (s : System) : Prop where
  closed : s.stream.file = none → s.reopenError = true
  error : s.reopenError = true → s.stream.failed = true

theorem reopen_broken {s : System} (h : s.broken = true) (opens : Bool) :
    s.reopen opens = { s with reopenError := true } := by
  obtain ⟨⟨file, failed⟩, lastTime, reopenError, named, files, content, entries⟩ := s
  obtain ⟨rfl, hfile⟩ := (Bool.and_eq_true _ _).mp h
  obtain ⟨file, rfl⟩ := Option.isSome_iff_exists.mp hfile
  rfl

/-- The stream that `reopen` opens is a closed one. -/
theorem reopen_closed {s : System} (h : s.broken = false) :
    (if s.stream.failed then s.stream else s.stream.close).file = none := by
  unfold System.broken at h
  split_ifs with hfailed
  · rw [hfailed, Bool.true_and] at h
    exact Option.not_isSome_iff_eq_none.mp (by simp [h])
  · rfl

theorem reopen_opened {s : System} (h : s.broken = false) :
    s.reopen true = { s with
      stream := ⟨some (s.named.getD s.files), false⟩
      reopenError := false
      named := some (s.named.getD s.files)
      files := if s.named.isNone then s.files+1 else s.files } := by
  simp only [System.reopen, reopen_closed h, Option.isNone_none, Bool.and_true, if_true]

theorem reopen_refused {s : System} (h : s.broken = false) :
    s.reopen false = { s with stream := ⟨none, true⟩, reopenError := true } := by
  simp only [System.reopen, reopen_closed h, Bool.and_false, Bool.false_eq_true, if_false]

theorem write_broken {s : System} (h : s.broken = true) (event : Event) (taken : ℕ) :
    s.write event taken = s := by
  obtain ⟨hfailed, hfile⟩ := (Bool.and_eq_true _ _).mp h
  obtain ⟨file, hfile⟩ := Option.isSome_iff_exists.mp hfile
  simp only [System.write, hfile, hfailed, if_true]

theorem write_open {s : System} {file : ℕ} (hfile : s.stream.file = some file)
    (h : s.broken = false) (event : Event) (taken : ℕ) :
    s.write event taken = { s with
      stream := ⟨some file, decide (taken < event.text.length)⟩
      content := Function.update s.content file (s.content file ++ event.text.take taken)
      entries := s.entries ++ [⟨file, event, event.text.take taken⟩] } := by
  have hfailed : s.stream.failed = false := by
    rw [System.broken, hfile, Option.isSome_some, Bool.and_true] at h
    exact h
  simp only [System.write, hfile, hfailed, Bool.false_eq_true, if_false]

/-- The first half of `log`. -/
def System.refreshed (event : Event) (opens : Bool) (s : System) : System :=
  if s.due event then { s.reopen opens with lastTime := event.time } else s

theorem log_eq (s : System) (event : Event) (opens : Bool) (taken : ℕ) :
    s.log event opens taken = if (s.refreshed event opens).reopenError then s.refreshed event opens
      else (s.refreshed event opens).write event taken := rfl

theorem write_keeps (s : System) (event : Event) (taken : ℕ) :
    (s.write event taken).stream.file = s.stream.file ∧
      (s.write event taken).reopenError = s.reopenError ∧
      (s.write event taken).named = s.named ∧ (s.write event taken).lastTime = s.lastTime := by
  cases hfile : s.stream.file with
  | none => simp [System.write, hfile]
  | some file => cases hfailed : s.stream.failed <;> simp [System.write, hfile, hfailed]

/-- The second half of `log` only writes. -/
theorem log_keeps (s : System) (event : Event) (opens : Bool) (taken : ℕ) :
    (s.log event opens taken).stream.file = (s.refreshed event opens).stream.file ∧
      (s.log event opens taken).reopenError = (s.refreshed event opens).reopenError ∧
      (s.log event opens taken).named = (s.refreshed event opens).named ∧
      (s.log event opens taken).lastTime = (s.refreshed event opens).lastTime := by
  rw [log_eq]
  split_ifs
  · exact ⟨rfl, rfl, rfl, rfl⟩
  · exact write_keeps _ event taken

def System.target (event : Event) (opens : Bool) (s : System) : Option ℕ :=
  if s.broken then none
  else if s.due event then if opens then some (s.named.getD s.files) else none
  else s.stream.file

theorem refreshed_broken {s : System} (h : s.broken = true) (event : Event) (opens : Bool) :
    (s.refreshed event opens).broken = true ∧ (s.refreshed event opens).stream = s.stream ∧
      (s.refreshed event opens).content = s.content ∧
      (s.refreshed event opens).entries = s.entries := by
  unfold System.refreshed
  split_ifs
  · rw [reopen_broken h]
    exact ⟨h, rfl, rfl, rfl⟩
  · exact ⟨h, rfl, rfl, rfl⟩

/-- A stream that works is open behind the first half of `log`, unless the last open failed. -/
theorem refreshed_working {s : System} (hready : Ready s) (h : s.broken = false) (event : Event)
    (opens : Bool) :
    (s.refreshed event opens).broken = false ∧
      (s.refreshed event opens).stream.file = s.target event opens ∧
      (s.refreshed event opens).reopenError = (s.target event opens).isNone ∧
      (s.refreshed event opens).content = s.content ∧
      (s.refreshed event opens).entries = s.entries := by
  unfold System.refreshed System.target
  rw [h]
  cases hdue : s.due event with
  | true =>
    cases opens with
    | true =>
      rw [reopen_opened h]
      exact ⟨rfl, rfl, rfl, rfl, rfl⟩
    | false =>
      rw [reopen_refused h]
      exact ⟨rfl, rfl, rfl, rfl, rfl⟩
  | false =>
    refine ⟨h, rfl, ?_, rfl, rfl⟩
    simp only [Bool.false_eq_true, if_false]
    cases hfile : s.stream.file with
    | none => exact hready.closed hfile
    | some file =>
      apply Bool.eq_false_of_not_eq_true
      intro herror
      rw [System.broken, hready.error herror, hfile] at h
      cases h

theorem log_broken {s : System} (h : s.broken = true) (event : Event) (opens : Bool)
    (taken : ℕ) : (s.log event opens taken).broken = true ∧
      (s.log event opens taken).stream = s.stream ∧
      (s.log event opens taken).content = s.content ∧
      (s.log event opens taken).entries = s.entries := by
  have hrefreshed := refreshed_broken h event opens
  rw [log_eq, write_broken hrefreshed.1, ite_self]
  exact hrefreshed

theorem log_dropped {s : System} (hready : Ready s) (h : s.broken = false) {event : Event}
    {opens : Bool} (htarget : s.target event opens = none) (taken : ℕ) :
    s.log event opens taken = s.refreshed event opens := by
  have herror := (refreshed_working hready h event opens).2.2.1
  rw [htarget] at herror
  rw [log_eq, herror]
  rfl

theorem log_written {s : System} (hready : Ready s) (h : s.broken = false) {event : Event}
    {opens : Bool} {file : ℕ} (htarget : s.target event opens = some file) (taken : ℕ) :
    s.log event opens taken = { s.refreshed event opens with
      stream := ⟨some file, decide (taken < event.text.length)⟩
      content := Function.update s.content file (s.content file ++ event.text.take taken)
      entries := s.entries ++ [⟨file, event, event.text.take taken⟩] } := by
  obtain ⟨hbroken, hfile, herror, hcontent, hentries⟩ := refreshed_working hready h event opens
  rw [htarget] at hfile herror
  rw [log_eq, herror, Option.isNone_some, if_neg Bool.false_ne_true, write_open hfile hbroken,
    hcontent, hentries]

/-- What every event does to the stream: nothing if it is broken, and otherwise it is open at the
target, and broken once a text is cut. -/
theorem log_stream {s : System} (hready : Ready s) (h : s.broken = false) (event : Event)
    (opens : Bool) (taken : ℕ) :
    (s.log event opens taken).stream.file = s.target event opens ∧
      (s.log event opens taken).broken =
        ((s.target event opens).isSome && decide (taken < event.text.length)) := by
  obtain ⟨hbroken, hfile, -⟩ := refreshed_working hready h event opens
  cases htarget : s.target event opens with
  | none =>
    rw [log_dropped hready h htarget, hfile, htarget]
    exact ⟨rfl, hbroken⟩
  | some file =>
    rw [log_written hready h htarget]
    exact ⟨rfl, Bool.and_comm _ _⟩

theorem reopen_ready (s : System) (opens : Bool) : Ready (s.reopen opens) := by
  cases h : s.broken with
  | true =>
    rw [reopen_broken h]
    obtain ⟨hfailed, -⟩ := (Bool.and_eq_true _ _).mp h
    exact ⟨fun _ => rfl, fun _ => hfailed⟩
  | false =>
    cases opens with
    | true =>
      rw [reopen_opened h]
      exact ⟨nofun, nofun⟩
    | false =>
      rw [reopen_refused h]
      exact ⟨fun _ => rfl, fun _ => rfl⟩

theorem refreshed_ready {s : System} (hready : Ready s) (event : Event) (opens : Bool) :
    Ready (s.refreshed event opens) := by
  unfold System.refreshed
  split_ifs
  · have h := reopen_ready s opens
    exact ⟨h.closed, h.error⟩
  · exact hready

theorem log_ready {s : System} (hready : Ready s) (event : Event) (opens : Bool) (taken : ℕ) :
    Ready (s.log event opens taken) := by
  have hrefreshed := refreshed_ready hready event opens
  obtain ⟨hfile, herror, -⟩ := log_keeps s event opens taken
  refine ⟨fun h => ?_, fun h => ?_⟩
  · rw [herror]
    rw [hfile] at h
    exact hrefreshed.closed h
  · rw [herror] at h
    rw [log_eq, if_pos h]
    exact hrefreshed.error h

/-! ## What the files hold -/

def Entry.Whole (e : Entry) : Prop := e.taken = e.event.text

/-- The files hold what was written to them, and only the text on which the stream broke is cut. -/
structure Recorded (old : ℕ → Bytes) (s : System) : Prop where
  content : ∀ f, s.content f =
    old f ++ (s.entries.filter fun e => e.file = f).flatMap Entry.taken
  whole : s.broken = false → ∀ e ∈ s.entries, e.Whole
  cut : s.broken = true → ∃ front last, s.entries = front ++ [last] ∧ ¬last.Whole ∧
    ∀ e ∈ front, e.Whole

theorem whole_iff (file : ℕ) (event : Event) (taken : ℕ) :
    Entry.Whole ⟨file, event, event.text.take taken⟩ ↔ ¬taken < event.text.length := by
  rw [Entry.Whole, List.take_eq_self_iff, not_lt]

theorem log_recorded {old : ℕ → Bytes} {s : System} (h : Recorded old s) (hready : Ready s)
    (event : Event) (opens : Bool) (taken : ℕ) : Recorded old (s.log event opens taken) := by
  cases hbroken : s.broken with
  | true =>
    obtain ⟨hstill, -, hcontent, hentries⟩ := log_broken hbroken event opens taken
    refine ⟨fun f => ?_, fun hnot => ?_, fun _ => ?_⟩
    · rw [hcontent, hentries]
      exact h.content f
    · rw [hstill] at hnot
      cases hnot
    · rw [hentries]
      exact h.cut hbroken
  | false =>
    obtain ⟨hstill, -, -, hcontent, hentries⟩ := refreshed_working hready hbroken event opens
    have hwhole := h.whole hbroken
    cases htarget : s.target event opens with
    | none =>
      rw [log_dropped hready hbroken htarget]
      refine ⟨fun f => ?_, fun _ => ?_, fun hnot => ?_⟩
      · rw [hcontent, hentries]
        exact h.content f
      · rw [hentries]
        exact hwhole
      · rw [hstill] at hnot
        cases hnot
    | some file =>
      have hbreaks := (log_stream hready hbroken event opens taken).2
      rw [htarget, Option.isSome_some, Bool.true_and] at hbreaks
      rw [log_written hready hbroken htarget] at hbreaks ⊢
      refine ⟨fun f => ?_, fun hnot => ?_, fun hcut => ?_⟩
      · dsimp only
        by_cases hf : f = file
        · subst hf
          rw [Function.update_self, h.content f]
          simp
        · rw [Function.update_of_ne hf, h.content f]
          simp [Ne.symm hf]
      · rw [hnot] at hbreaks
        intro e he
        rcases List.mem_append.mp he with he | he
        · exact hwhole e he
        · rw [List.mem_singleton.mp he]
          exact (whole_iff file event taken).mpr (of_decide_eq_false hbreaks.symm)
      · rw [hcut] at hbreaks
        refine ⟨s.entries, _, rfl, ?_, hwhole⟩
        rw [whole_iff, not_not]
        exact of_decide_eq_true hbreaks.symm

/-! ## Where events go once the file was renamed -/

def Unmoved (_ : System) : Action → Prop
  | .log _ _ _ => True
  | .rename _ => False

/-- Behind a rename at the time `T` or earlier, the stream is at the file that has the name now, or
it is old. -/
def Follows (T : ℕ) (s : System) : Prop :=
  s.broken = true ∨ s.lastTime.toNat ≤ T ∨ ∀ f, s.stream.file = some f → s.named = some f

theorem refreshed_named {s : System} {event : Event} {opens : Bool} {f : ℕ}
    (hf : s.named = some f) : (s.refreshed event opens).named = some f := by
  unfold System.refreshed
  split_ifs
  · cases h : s.broken with
    | true =>
      rw [reopen_broken h]
      exact hf
    | false =>
      cases opens with
      | true =>
        rw [reopen_opened h]
        dsimp only
        rw [hf, Option.getD_some]
      | false =>
        rw [reopen_refused h]
        exact hf
  · exact hf

theorem refreshed_due {s : System} {event : Event} {opens : Bool} (h : s.broken = false)
    (hdue : s.due event = true) {f : ℕ} (hf : (s.refreshed event opens).stream.file = some f) :
    (s.refreshed event opens).named = some f := by
  unfold System.refreshed at hf ⊢
  rw [if_pos hdue] at hf ⊢
  cases opens with
  | true =>
    rw [reopen_opened h] at hf ⊢
    exact hf
  | false =>
    rw [reopen_refused h] at hf
    cases hf

theorem refreshed_early {s : System} {event : Event} {opens : Bool} (hdue : s.due event = false) :
    s.refreshed event opens = s := by
  rw [System.refreshed, hdue]
  rfl

/-- A stream that is left alone was opened less than three seconds before the event. -/
theorem early_lt {s : System} {event : Event} (hdue : s.due event = false) :
    event.time.toNat < s.lastTime.toNat+3 := by
  have hnot : ¬s.lastTime+3 ≤ event.time := of_decide_eq_false hdue
  rw [UInt64.le_iff_toNat_le, UInt64.toNat_add] at hnot
  have hle : (s.lastTime.toNat+(3 : UInt64).toNat) % 2^64 ≤ s.lastTime.toNat+3 := Nat.mod_le _ _
  omega

theorem log_follows {T : ℕ} {s : System} (hready : Ready s) (h : Follows T s) (event : Event)
    (opens : Bool) (taken : ℕ) : Follows T (s.log event opens taken) ∧
      (s.broken = false → T+3 ≤ event.time.toNat → ∀ f, s.target event opens = some f →
        (s.log event opens taken).named = some f) := by
  cases hbroken : s.broken with
  | true => exact ⟨.inl (log_broken hbroken event opens taken).1, nofun⟩
  | false =>
    obtain ⟨hfile, -, hnamed, htime⟩ := log_keeps s event opens taken
    have htarget := (refreshed_working hready hbroken event opens).2.1
    unfold Follows
    rw [hfile, hnamed, htime, ← htarget]
    cases hdue : s.due event with
    | true =>
      have hmoved (f : ℕ) (hf : (s.refreshed event opens).stream.file = some f) :
          (s.refreshed event opens).named = some f := refreshed_due hbroken hdue hf
      exact ⟨.inr (.inr hmoved), fun _ _ => hmoved⟩
    | false =>
      rw [refreshed_early hdue]
      have hfollows := h.resolve_left (by simp [hbroken])
      refine ⟨.inr hfollows, fun _ hlate => hfollows.resolve_left ?_⟩
      have hearly := early_lt hdue
      omega

theorem run_follows {T : ℕ} {as : List Action} {s s' : System} (hrun : Along next Unmoved as s s')
    (hready : Ready s) (h : Follows T s) : ∃ es, s'.entries = s.entries ++ es ∧
      (∀ f, s.named = some f → s'.named = some f) ∧
      ∀ e ∈ es, T+3 ≤ e.event.time.toNat → s'.named = some e.file := by
  induction hrun with
  | nil s => exact ⟨[], (List.append_nil _).symm, fun _ hf => hf, nofun⟩
  | @cons s t u a as hg hn _ ih =>
    cases a with
    | rename => cases hg
    | log event opens taken =>
      obtain rfl := Option.some.inj hn
      obtain ⟨hfollows, hlate⟩ := log_follows hready h event opens taken
      obtain ⟨es, hes, hnamed', hfiles⟩ := ih (log_ready hready event opens taken) hfollows
      have hnamed (f : ℕ) (hf : s.named = some f) : u.named = some f := by
        apply hnamed'
        rw [(log_keeps s event opens taken).2.2.1]
        exact refreshed_named hf
      cases hbroken : s.broken with
      | true =>
        rw [(log_broken hbroken event opens taken).2.2.2] at hes
        exact ⟨es, hes, hnamed, hfiles⟩
      | false =>
        cases htarget : s.target event opens with
        | none =>
          have hentries := (refreshed_working hready hbroken event opens).2.2.2.2
          rw [log_dropped hready hbroken htarget, hentries] at hes
          exact ⟨es, hes, hnamed, hfiles⟩
        | some file =>
          have hentries : (s.log event opens taken).entries =
              s.entries ++ [⟨file, event, event.text.take taken⟩] := by
            rw [log_written hready hbroken htarget]
          rw [hentries, List.append_assoc] at hes
          refine ⟨_, hes, hnamed, ?_⟩
          intro e he htime
          rcases List.mem_append.mp he with he | he
          · obtain rfl := List.mem_singleton.mp he
            exact hnamed' file (hlate hbroken htime file htarget)
          · exact hfiles e he htime

/-! ## Runs -/

theorem new_recorded (named : Option ℕ) (files : ℕ) (old : ℕ → Bytes) (opens : Bool) :
    Recorded old (System.new named files old opens) := by
  unfold System.new
  cases opens with
  | true =>
    rw [reopen_opened rfl]
    exact ⟨fun _ => (List.append_nil _).symm, nofun, nofun⟩
  | false =>
    rw [reopen_refused rfl]
    exact ⟨fun _ => (List.append_nil _).symm, nofun, nofun⟩

theorem log_entries {s : System} (hready : Ready s) (event : Event) (opens : Bool) (taken : ℕ) :
    (s.log event opens taken).entries = s.entries ++ (s.target event opens).toList.map
      fun f => ⟨f, event, event.text.take taken⟩ := by
  cases h : s.broken with
  | true =>
    have htarget : s.target event opens = none := if_pos h
    rw [(log_broken h event opens taken).2.2.2, htarget]
    exact (List.append_nil _).symm
  | false =>
    cases htarget : s.target event opens with
    | none =>
      rw [log_dropped hready h htarget, (refreshed_working hready h event opens).2.2.2.2]
      exact (List.append_nil _).symm
    | some file => rw [log_written hready h htarget]; rfl

theorem next_good {old : ℕ → Bytes} {s t : System} {a : Action} (h : Ready s ∧ Recorded old s)
    (hn : next s a = some t) : Ready t ∧ Recorded old t := by
  cases a with
  | log event opens taken =>
    obtain rfl := Option.some.inj hn
    exact ⟨log_ready h.1 event opens taken, log_recorded h.2 h.1 event opens taken⟩
  | rename named =>
    simp only [next] at hn
    split_ifs at hn
    obtain rfl := Option.some.inj hn
    exact ⟨⟨h.1.closed, h.1.error⟩, ⟨h.2.content, h.2.whole, h.2.cut⟩⟩

theorem broken_forever {s t : System} (hbroken : s.broken = true)
    (h : Reaches next Free s t) : t.broken = true ∧ t.entries = s.entries := by
  apply h.invariant (I := fun t => t.broken = true ∧ t.entries = s.entries) ⟨hbroken, rfl⟩
  intro t a u ht _ hn
  cases a with
  | log event opens taken =>
    obtain rfl := Option.some.inj hn
    obtain ⟨hstill, -, -, hentries⟩ := log_broken ht.1 event opens taken
    exact ⟨hstill, hentries.trans ht.2⟩
  | rename named =>
    simp only [next] at hn
    split_ifs at hn
    obtain rfl := Option.some.inj hn
    exact ht

/-- Whatever the events, the renames and the answers of the kernel: a file holds the texts of the
events that went to it, whole and in their order, and only the one on which the stream broke is cut.
A broken stream takes nothing any more, and otherwise every event goes to its target. Behind a
rename, the events that are three seconds younger than the last opening go to the file that has the
name then. -/
theorem log_follows_name (named : Option ℕ) (files : ℕ) (old : ℕ → Bytes) (opens : Bool)
    (s : System) (h : Reaches next Free (System.new named files old opens) s) :
    Recorded old s ∧
    (s.broken = true → ∀ t, Reaches next Free s t → t.entries = s.entries) ∧
    (∀ event opens taken, (s.log event opens taken).entries = s.entries ++
      (s.target event opens).toList.map fun f => ⟨f, event, event.text.take taken⟩) ∧
    ∀ name t T as s', next s (.rename name) = some t → s.lastTime.toNat ≤ T →
      Along next Unmoved as t s' → ∃ es, s'.entries = s.entries ++ es ∧
        ∀ e ∈ es, T+3 ≤ e.event.time.toNat → s'.named = some e.file := by
  obtain ⟨hready, hrecorded⟩ : Ready s ∧ Recorded old s :=
    h.invariant ⟨reopen_ready _ opens, new_recorded named files old opens⟩
      fun _ _ _ hs _ hn => next_good hs hn
  refine ⟨hrecorded, fun hbroken t ht => (broken_forever hbroken ht).2, log_entries hready, ?_⟩
  intro name t T as s' hn htime hrun
  simp only [next] at hn
  split_ifs at hn
  obtain rfl := Option.some.inj hn
  obtain ⟨es, hes, -, hfiles⟩ := run_follows hrun ⟨hready.closed, hready.error⟩
    (T := T) (.inr (.inl htime))
  exact ⟨es, hes, hfiles⟩

def eventAt (time : UInt64) : Event := ⟨time, [10]⟩

/-- The file is moved away behind the first event. The second one comes early and follows it, the
third one goes to a new file. -/
theorem third_event_moved : ∃ s,
    after next [.log (eventAt 10) true 1, .rename none, .log (eventAt 12) true 1,
      .log (eventAt 13) true 1] (System.new (some 0) 1 (fun _ => []) true) = some s ∧
      s.entries.map Entry.file = [0, 0, 1] ∧
      ∃ e ∈ s.entries, e.event = eventAt 13 ∧ s.named = some e.file := by
  have hfirst : Reaches next Free (System.new (some 0) 1 (fun _ => []) true) _ :=
    Reaches.start.step (a := Action.log (eventAt 10) true 1) trivial rfl
  obtain ⟨es, hes, hfiles⟩ := (log_follows_name _ _ _ _ _ hfirst).2.2.2 none _ 10
    [.log (eventAt 12) true 1, .log (eventAt 13) true 1] _ rfl le_rfl
    (.cons trivial rfl (.cons trivial rfl (.nil _)))
  have hentries : [⟨0, eventAt 10, [10]⟩] ++ [⟨0, eventAt 12, [10]⟩, ⟨1, eventAt 13, [10]⟩] =
      [⟨0, eventAt 10, [10]⟩] ++ es := hes
  obtain rfl := List.append_cancel_left hentries
  refine ⟨_, rfl, rfl, ⟨1, eventAt 13, [10]⟩, .tail _ (.tail _ (.head _)), rfl, ?_⟩
  exact hfiles ⟨1, eventAt 13, [10]⟩ (.tail _ (.head _)) le_rfl

end Lamb.FileLog
