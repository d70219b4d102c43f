import Lamb.LogConfig

/-!
# The listener of the `logs` configuration

`setValue` calls the listener with the old and the new set and then stores the
new one. The listener configures every logger whose definition is new or has
changed and silences every logger whose definition is gone. Over any history, the
loggers named in the current set are configured by it, those named only in earlier
sets are silent, and all others are as they were at the start.
-/

set_option autoImplicit false

namespace Lamb.LogIniter
open Lamb.ByteString Lamb.Http Lamb.OrderedSet Lamb.LogConfig

/-- The pattern of `new LogFormatter`. -/
def defaultPattern : Bytes :=
  ascii "%d\x7b%Y-%m-%d %H:%M:%S\x7d [%rms]%T%t%T%N%T%F%T[%p]%T[%c]%T%f:%l:%m%n"

inductive Sink where
  | file (filename : Bytes)
  | stdout
  deriving DecidableEq

/-- An appender with the pattern of its `m_formatter`, if that is set. -/
structure LogAppender where
  sink : Sink
  formatter : Option Bytes
  deriving DecidableEq

structure Logger where
  level : ℕ
  appenders : List LogAppender
  deriving DecidableEq

/-- `new Logger(name)`. -/
def Logger.new : Logger := ⟨Level.DEBUG.value, []⟩

def Logger.setLevel (level : ℕ) (l : Logger) : Logger := { l with level := level }

def Logger.clearAppenders (l : Logger) : Logger := { l with appenders := [] }

def Logger.addAppender (a : LogAppender) (l : Logger) : Logger :=
  { l with appenders := l.appenders ++ [a] }

/-- `LoggerManager::m_loggers`. -/
abbrev Loggers := Bytes → Option Logger

/-- `LoggerManager::getLogger`, which creates a logger that is not there. -/
def getLogger (name : Bytes) (m : Loggers) : Logger := (m name).getD .new

def put (name : Bytes) (l : Logger) (m : Loggers) : Loggers :=
  fun n => if n = name then some l else m n

/-- The appender of a definition. For a type other than 1 and 2 the pointer stays
null, and setting its formatter ends the program. -/
def newAppender (a : LogAppendDefine) : Option LogAppender :=
  let formatter := if a.pattern.isEmpty then defaultPattern else a.pattern
  if a.type = 1 then some ⟨.file a.file, some formatter⟩
  else if a.type = 2 then some ⟨.stdout, some formatter⟩
  else none

def addAppenders : List LogAppendDefine → Logger → Option Logger
  | [], l => some l
  | a::rest, l => do
    let ap ← newAppender a
    addAppenders rest (l.addAppender ap)

def configure (i : LogDefine) (m : Loggers) : Option Loggers := do
  let logger := ((getLogger i.name m).setLevel i.level.value).clearAppenders
  let logger ← addAppenders i.appenders logger
  return put i.name logger m

def configureAll (old : LogDefines) : List LogDefine → Loggers → Option Loggers
  | [], m => some m
  | i::rest, m =>
    match old.find i with
    | none => (configure i m).bind (configureAll old rest)
    | some d =>
      if i = d then configureAll old rest m
      else (configure i m).bind (configureAll old rest)

def silence (i : LogDefine) (m : Loggers) : Loggers :=
  put i.name ((getLogger i.name m).setLevel 100).clearAppenders m

def silenceAll (new : LogDefines) : List LogDefine → Loggers → Loggers
  | [], m => m
  | i::rest, m =>
    match new.find i with
    | none => silenceAll new rest (silence i m)
    | some _ => silenceAll new rest m

def listener (old new : LogDefines) (m : Loggers) : Option Loggers :=
  (configureAll old new.elems m).map (silenceAll new old.elems)

structure State where
  value : LogDefines
  loggers : Loggers

/-- `g_log_defines->setValue`; `none` when the listener crashes. -/
def setValue (v : LogDefines) (s : State) : Option State :=
  if v.elems = s.value.elems then some s
  else (listener s.value v s.loggers).map fun m => ⟨v, m⟩

def setValues : List LogDefines → State → Option State
  | [], s => some s
  | v::vs, s => (setValue v s).bind (setValues vs)

def Typed (v : LogDefines) : Prop :=
  ∀ d ∈ v.elems, ∀ a ∈ d.appenders, a.type = 1 ∨ a.type = 2

def LogAppendDefine.wanted (a : LogAppendDefine) : LogAppender :=
  ⟨if a.type = 1 then .file a.file else .stdout,
    some (if a.pattern.isEmpty then defaultPattern else a.pattern)⟩

def wantedLogger (d : LogDefine) : Logger :=
  ⟨d.level.value, d.appenders.map LogAppendDefine.wanted⟩

def silent : Logger := ⟨100, []⟩

def Named (v : LogDefines) (name : Bytes) : Prop := ∃ d ∈ v.elems, d.name = name

/-- The loggers follow the current value: those it names are as it defines them,
those named only by an earlier value are silent, the others are untouched. The
names used so far are those of all values up to the current one. -/
structure Follows (start : Loggers) (used : Bytes → Prop) (s : State) : Prop where
  current : ∀ d ∈ s.value.elems, s.loggers d.name = some (wantedLogger d)
  gone : ∀ name, used name → ¬ Named s.value name → s.loggers name = some silent
  untouched : ∀ name, ¬ used name → s.loggers name = start name
  known : ∀ name, Named s.value name → used name

section Listener

theorem put_same (name : Bytes) (l : Logger) (m : Loggers) : put name l m name = some l :=
  if_pos rfl

theorem put_other (name n : Bytes) (l : Logger) (m : Loggers) (h : n ≠ name) :
    put name l m n = m n := if_neg h

theorem newAppender_typed (a : LogAppendDefine) (h : a.type = 1 ∨ a.type = 2) :
    newAppender a = some (LogAppendDefine.wanted a) := by
  rcases h with h | h
  · simp [newAppender, LogAppendDefine.wanted, h]
  · simp [newAppender, LogAppendDefine.wanted, h]

theorem addAppenders_typed (as : List LogAppendDefine) (l : Logger)
    (h : ∀ a ∈ as, a.type = 1 ∨ a.type = 2) :
    addAppenders as l =
      some { l with appenders := l.appenders ++ as.map LogAppendDefine.wanted } := by
  induction as generalizing l with
  | nil => rw [addAppenders, List.map_nil, List.append_nil]
  | cons a as ih =>
    obtain ⟨ha, has⟩ := List.forall_mem_cons.mp h
    rw [addAppenders, newAppender_typed a ha]
    simp only [bind, Option.bind]
    rw [ih _ has, Logger.addAppender, List.append_assoc]
    rfl

theorem configure_typed (i : LogDefine) (m : Loggers)
    (h : ∀ a ∈ i.appenders, a.type = 1 ∨ a.type = 2) :
    configure i m = some (put i.name (wantedLogger i) m) := by
  rw [configure, addAppenders_typed i.appenders _ h]
  rfl

/-- One definition of the new set: afterwards its logger is as it says, because it
has been configured or because it was so before. -/
theorem configureAll_cons (old : LogDefines) (i : LogDefine) (rest : List LogDefine)
    (m : Loggers) (h : ∀ a ∈ i.appenders, a.type = 1 ∨ a.type = 2)
    (hkept : i ∈ old.elems → m i.name = some (wantedLogger i)) :
    ∃ m', configureAll old (i::rest) m = configureAll old rest m' ∧
      m' i.name = some (wantedLogger i) ∧ ∀ name, name ≠ i.name → m' name = m name := by
  have hput : ∃ m', (configure i m).bind (configureAll old rest) = configureAll old rest m' ∧
      m' i.name = some (wantedLogger i) ∧ ∀ name, name ≠ i.name → m' name = m name := by
    refine ⟨put i.name (wantedLogger i) m, ?_, put_same _ _ _, fun name => put_other _ name _ m⟩
    rw [configure_typed i m h]
    rfl
  rw [configureAll]
  cases hf : old.find i with
  | none => exact hput
  | some d =>
    simp only
    split_ifs with heq
    · subst heq
      exact ⟨m, rfl, hkept (find_name old i i hf).1, fun _ _ => rfl⟩
    · exact hput

theorem configureAll_typed (old : LogDefines) (ds : List LogDefine) (m : Loggers)
    (hord : Ordered nameLess LogDefine.name ds)
    (h : ∀ d ∈ ds, ∀ a ∈ d.appenders, a.type = 1 ∨ a.type = 2)
    (hkept : ∀ d ∈ ds, d ∈ old.elems → m d.name = some (wantedLogger d)) :
    ∃ m', configureAll old ds m = some m' ∧
      (∀ d ∈ ds, m' d.name = some (wantedLogger d)) ∧
      ∀ name, (∀ d ∈ ds, d.name ≠ name) → m' name = m name := by
  induction ds generalizing m with
  | nil => exact ⟨m, rfl, fun d hd => absurd hd List.not_mem_nil, fun _ _ => rfl⟩
  | cons i rest ih =>
    obtain ⟨hi, hrest⟩ := List.forall_mem_cons.mp h
    obtain ⟨hki, hkrest⟩ := List.forall_mem_cons.mp hkept
    obtain ⟨hlt, hord⟩ := List.pairwise_cons.mp hord
    have hne : ∀ d ∈ rest, d.name ≠ i.name := by
      intro d hd heq
      have := hlt d hd
      rw [heq, nameLess_order.irrefl] at this
      exact Bool.false_ne_true this
    obtain ⟨m₁, h₁, hm₁, hframe₁⟩ := configureAll_cons old i rest m hi hki
    obtain ⟨m₂, h₂, hm₂, hframe₂⟩ := ih m₁ hord hrest
      (fun d hd hold => (hframe₁ d.name (hne d hd)).trans (hkrest d hd hold))
    refine ⟨m₂, h₁.trans h₂, ?_, ?_⟩
    · exact List.forall_mem_cons.mpr ⟨(hframe₂ i.name hne).trans hm₁, hm₂⟩
    · intro name hname
      obtain ⟨hni, hnrest⟩ := List.forall_mem_cons.mp hname
      exact (hframe₂ name hnrest).trans (hframe₁ name (Ne.symm hni))

theorem find_none_named (v : LogDefines) (i : LogDefine) :
    v.find i = none ↔ ¬ Named v i.name := by
  rw [find_none, Named]
  simp

/-- The loop over the old set silences what the new set does not name. -/
theorem silenceAll_gone (new : LogDefines) (ds : List LogDefine) (m : Loggers) (name : Bytes)
    (hnew : ¬ Named new name) (h : m name = some silent ∨ ∃ d ∈ ds, d.name = name) :
    silenceAll new ds m name = some silent := by
  induction ds generalizing m with
  | nil =>
    rcases h with h | ⟨d, hd, -⟩
    · exact h
    · exact absurd hd List.not_mem_nil
  | cons i rest ih =>
    rw [silenceAll]
    cases hf : new.find i with
    | none =>
      apply ih
      by_cases hi : i.name = name
      · left
        rw [← hi]
        exact put_same _ _ m
      · rcases h with h | ⟨d, hd, hname⟩
        · left
          exact (put_other _ name _ m (Ne.symm hi)).trans h
        · rcases List.mem_cons.mp hd with rfl | hd
          · exact absurd hname hi
          · exact .inr ⟨d, hd, hname⟩
    | some e =>
      apply ih
      rcases h with h | ⟨d, hd, hname⟩
      · exact .inl h
      · rcases List.mem_cons.mp hd with rfl | hd
        · rw [← hname, ← find_none_named, hf] at hnew
          exact absurd hnew (by simp)
        · exact .inr ⟨d, hd, hname⟩

theorem silenceAll_other (new : LogDefines) (ds : List LogDefine) (m : Loggers) (name : Bytes)
    (h : Named new name ∨ ∀ d ∈ ds, d.name ≠ name) : silenceAll new ds m name = m name := by
  induction ds generalizing m with
  | nil => rfl
  | cons i rest ih =>
    have hrest : Named new name ∨ ∀ d ∈ rest, d.name ≠ name :=
      h.imp_right fun h => (List.forall_mem_cons.mp h).2
    rw [silenceAll]
    cases hf : new.find i with
    | none =>
      have hne : name ≠ i.name := by
        rintro rfl
        rcases h with h | h
        · exact (find_none_named new i).mp hf h
        · exact h i List.mem_cons_self rfl
      simp only
      rw [ih _ hrest]
      exact put_other _ name _ m hne
    | some e => exact ih m hrest

end Listener

section Runs

theorem setValue_follows (start : Loggers) (used : Bytes → Prop) (s : State) (v : LogDefines)
    (hs : Follows start used s) (hv : Typed v) :
    ∃ s', setValue v s = some s' ∧ s'.value = v ∧
      Follows start (fun name => used name ∨ Named v name) s' := by
  unfold setValue
  split_ifs with heq
  · obtain rfl := LogDefines.ext heq
    refine ⟨s, rfl, rfl, hs.current, ?_, ?_, ?_⟩
    · rintro name (h | h) hno
      · exact hs.gone name h hno
      · exact absurd h hno
    · exact fun name h => hs.untouched name fun hu => h (.inl hu)
    · exact fun name h => .inr h
  · obtain ⟨m, hm, hcur, hframe⟩ := configureAll_typed s.value v.elems s.loggers v.ordered hv
      (fun d _ hold => hs.current d hold)
    have hrun : listener s.value v s.loggers = some (silenceAll v s.value.elems m) := by
      rw [listener, hm]
      rfl
    have hnot : ∀ name, ¬ Named v name → m name = s.loggers name := fun name hno =>
      hframe name fun d hd hname => hno ⟨d, hd, hname⟩
    refine ⟨⟨v, silenceAll v s.value.elems m⟩, by rw [hrun]; rfl, rfl, ?_, ?_, ?_, ?_⟩
    · intro d hd
      exact (silenceAll_other v _ m d.name (.inl ⟨d, hd, rfl⟩)).trans (hcur d hd)
    · rintro name (hu | hn) hno
      · apply silenceAll_gone v _ m name hno
        by_cases hold : Named s.value name
        · exact .inr hold
        · exact .inl ((hnot name hno).trans (hs.gone name hu hold))
      · exact absurd hn hno
    · intro name hname
      obtain ⟨hu, hno⟩ := not_or.mp hname
      have hold : ∀ d ∈ s.value.elems, d.name ≠ name := fun d hd heq =>
        hu (hs.known name ⟨d, hd, heq⟩)
      exact ((silenceAll_other v _ m name (.inr hold)).trans (hnot name hno)).trans
        (hs.untouched name hu)
    · exact fun name h => .inr h

def UsedBy (vs : List LogDefines) (name : Bytes) : Prop := ∃ v ∈ vs, Named v name

theorem setValues_follow (start : Loggers) (vs : List LogDefines) (used : Bytes → Prop)
    (s : State) (hs : Follows start used s) (h : ∀ v ∈ vs, Typed v) :
    ∃ s', setValues vs s = some s' ∧ s'.value = vs.getLastD s.value ∧
      Follows start (fun name => used name ∨ UsedBy vs name) s' := by
  induction vs generalizing used s with
  | nil => exact ⟨s, rfl, rfl, by simpa [UsedBy] using hs⟩
  | cons v vs ih =>
    obtain ⟨hv, hvs⟩ := List.forall_mem_cons.mp h
    obtain ⟨s₁, h₁, hval, hs₁⟩ := setValue_follows start used s v hs hv
    obtain ⟨s₂, h₂, hlast, hs₂⟩ := ih _ s₁ hs₁ hvs
    refine ⟨s₂, by rw [setValues, h₁]; exact h₂, ?_, ?_⟩
    · rw [hlast, hval]
      cases vs <;> rfl
    · simpa [UsedBy, or_assoc] using hs₂

/-- Two states that follow the same value with the same names used are the same. -/
theorem follows_unique (start : Loggers) (used : Bytes → Prop) (s t : State)
    (hs : Follows start used s) (ht : Follows start used t) (h : s.value = t.value) :
    s.loggers = t.loggers := by
  funext name
  by_cases hn : Named s.value name
  · obtain ⟨d, hd, rfl⟩ := hn
    rw [hs.current d hd, ht.current d (h ▸ hd)]
  · by_cases hu : used name
    · rw [hs.gone name hu hn, ht.gone name hu (h ▸ hn)]
    · rw [hs.untouched name hu, ht.untouched name hu]

theorem follows_start (start : Loggers) :
    Follows start (fun _ => False) ⟨.empty, start⟩ where
  current := fun d hd => absurd hd List.not_mem_nil
  gone := fun _ h _ => h.elim
  untouched := fun _ _ => rfl
  known := by
    rintro name ⟨d, hd, -⟩
    exact absurd hd List.not_mem_nil

end Runs

theorem setValues_from_empty (start : Loggers) (vs : List LogDefines) (h : ∀ v ∈ vs, Typed v) :
    ∃ s, setValues vs ⟨.empty, start⟩ = some s ∧ s.value = vs.getLastD .empty ∧
      Follows start (UsedBy vs) s := by
  simpa only [false_or] using setValues_follow start vs _ _ (follows_start start) h

/-- After any sequence of `setValue` calls from the empty value the loggers follow
the last value, and every other sequence with this last value and these names ends
in the same state. -/
theorem loggers_follow_config (start : Loggers) (vs : List LogDefines)
    (h : ∀ v ∈ vs, Typed v) :
    ∃ s, setValues vs ⟨.empty, start⟩ = some s ∧ s.value = vs.getLastD .empty ∧
      Follows start (UsedBy vs) s ∧
      ∀ ws, (∀ v ∈ ws, Typed v) → ws.getLastD .empty = vs.getLastD .empty →
        (∀ name, UsedBy ws name ↔ UsedBy vs name) →
        setValues ws ⟨.empty, start⟩ = some s := by
  obtain ⟨s, hs, hval, hfollows⟩ := setValues_from_empty start vs h
  refine ⟨s, hs, hval, hfollows, ?_⟩
  intro ws hws hlast hused
  obtain ⟨t, ht, htval, htfollows⟩ := setValues_from_empty start ws hws
  have hsame : UsedBy ws = UsedBy vs := funext fun name => propext (hused name)
  rw [hsame] at htfollows
  have hv : t.value = s.value := by rw [htval, hval, hlast]
  have hm : t.loggers = s.loggers := follows_unique start _ t s htfollows hfollows hv
  rw [ht]
  cases t
  cases s
  cases hv
  cases hm
  rfl

def consoleThenFile : List LogDefines :=
  [⟨[⟨ascii "root", .DEBUG, [⟨2, [], []⟩]⟩], List.pairwise_singleton _ _⟩,
    ⟨[⟨ascii "system", .ERROR, [⟨1, ascii "%m%n", ascii "log.txt"⟩]⟩],
      List.pairwise_singleton _ _⟩]

theorem loggers_follow_console_then_file : ∃ s,
    setValues consoleThenFile ⟨.empty, fun _ => none⟩ = some s ∧
      s.value = consoleThenFile.getLastD .empty ∧
      Follows (fun _ => none) (UsedBy consoleThenFile) s ∧
      ∀ ws, (∀ v ∈ ws, Typed v) → ws.getLastD .empty = consoleThenFile.getLastD .empty →
        (∀ name, UsedBy ws name ↔ UsedBy consoleThenFile name) →
        setValues ws ⟨.empty, fun _ => none⟩ = some s := by
  apply loggers_follow_config
  simp [consoleThenFile, Typed]

end Lamb.LogIniter
