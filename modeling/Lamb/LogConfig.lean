import Lamb.Http
import Lamb.Library.OrderedSet

/-!
# Log definitions and their YAML text

The value of the `logs` configuration is a set of log definitions ordered by name.
A definition is written to and read from a YAML tree, which `yaml-cpp` is taken to
emit and reload faithfully. The two directions name the list of appenders
differently, so only definitions without appenders survive the round trip.
-/

set_option autoImplicit false

namespace Lamb.LogConfig
open Lamb.ByteString Lamb.Http Lamb.OrderedSet

inductive Level where
  | UNKNOW
  | DEBUG
  | INFO
  | WARN
  | ERROR
  | FATAL
  | NOTSET
  deriving DecidableEq, Repr

def Level.value : Level → ℕ
  | .UNKNOW => 0
  | .DEBUG => 1
  | .INFO => 2
  | .WARN => 3
  | .ERROR => 4
  | .FATAL => 5
  | .NOTSET => 6

/-- `LogLevel::ToString`. -/
def Level.text : Level → Bytes
  | .DEBUG => ascii "DEBUG"
  | .INFO => ascii "INFO"
  | .WARN => ascii "WARN"
  | .ERROR => ascii "ERROR"
  | .FATAL => ascii "FATAL"
  | _ => ascii "UNKNOW"

/-- `LogLevel::FromString`. -/
def Level.fromString (str : Bytes) : Level :=
  if str = ascii "debug" then .DEBUG
  else if str = ascii "info" then .INFO
  else if str = ascii "warn" then .WARN
  else if str = ascii "error" then .ERROR
  else if str = ascii "fatal" then .FATAL
  else if str = ascii "DEBUG" then .DEBUG
  else if str = ascii "INFO" then .INFO
  else if str = ascii "WARN" then .WARN
  else if str = ascii "ERROR" then .ERROR
  else if str = ascii "FATAL" then .FATAL
  else .UNKNOW

/-- The `type` is 1 for a file and 2 for the standard output. -/
structure LogAppendDefine where
  type : ℤ
  pattern : Bytes
  file : Bytes
  deriving DecidableEq

structure LogDefine where
  name : Bytes
  level : Level
  appenders : List LogAppendDefine
  deriving DecidableEq

def nameLess (a b : Bytes) : Bool := decide (a < b)

/-- A `std::set<LogDefine>`, whose `operator<` compares names. -/
structure LogDefines where
  elems : List LogDefine
  ordered : Ordered nameLess LogDefine.name elems

def LogDefines.empty : LogDefines := ⟨[], .nil⟩

theorem nameLess_order : LinearLess nameLess := lexicographic

def LogDefines.find (key : LogDefine) (s : LogDefines) : Option LogDefine :=
  OrderedSet.find nameLess LogDefine.name key.name s.elems

theorem find_mem (s : LogDefines) (d : LogDefine) (h : d ∈ s.elems) : s.find d = some d :=
  find_of_mem nameLess_order.toStrictOrder s.ordered h

theorem find_name (s : LogDefines) (key d : LogDefine) (h : s.find key = some d) :
    d ∈ s.elems ∧ d.name = key.name := by
  obtain ⟨hmem, h₁, h₂⟩ := mem_of_find nameLess_order.toStrictOrder s.ordered h
  exact ⟨hmem, nameLess_order.connected h₁ h₂⟩

theorem find_none (s : LogDefines) (key : LogDefine) :
    s.find key = none ↔ ∀ d ∈ s.elems, d.name ≠ key.name := by
  constructor
  · intro h d hd hname
    have hfound := find_mem s d hd
    rw [LogDefines.find, hname] at hfound
    rw [LogDefines.find, hfound] at h
    cases h
  · intro h
    cases hf : s.find key with
    | none => rfl
    | some d =>
      obtain ⟨hmem, hname⟩ := find_name s key d hf
      exact absurd hname (h d hmem)

theorem apart_of_names (s : LogDefines) (d : LogDefine) (h : ∀ e ∈ s.elems, e.name ≠ d.name) :
    Apart nameLess LogDefine.name d s.elems := by
  intro e he
  by_contra hno
  simp only [not_or, Bool.not_eq_true] at hno
  exact h e he (nameLess_order.connected hno.1 hno.2)

/-- `std::set::insert`; a definition with the name of another one is dropped. -/
def LogDefines.insert (d : LogDefine) (s : LogDefines) : LogDefines where
  elems := OrderedSet.insert nameLess LogDefine.name d s.elems
  ordered := by
    cases hf : s.find d with
    | some e =>
      rw [LogDefines.find] at hf
      rw [OrderedSet.insert, hf]
      exact s.ordered
    | none =>
      exact insert_ordered nameLess_order.toStrictOrder s.ordered
        (apart_of_names s d ((find_none s d).mp hf))

section Yaml

/-- The trees of `yaml-cpp`. A key is a scalar. -/
inductive Node where
  | null
  | scalar (text : Bytes)
  | sequence (items : List Node)
  | map (entries : List (Bytes × Node))

/-- The exceptions of the reader: `std::logic_error` for a missing name, and those of
`yaml-cpp` for a subscript of a scalar and a conversion of what is no scalar. -/
inductive LoadError where
  | nameIsNull
  | badSubscript
  | badConversion
  deriving DecidableEq

def Node.get (n : Node) (key : Bytes) : Except LoadError (Option Node) :=
  match n with
  | .scalar _ => .error .badSubscript
  | .map entries => .ok ((entries.find? fun e => e.1 = key).map Prod.snd)
  | _ => .ok none

/-- `as<std::string>()`; a null converts to the text `null`. -/
def Node.text : Node → Except LoadError Bytes
  | .scalar text => .ok text
  | .null => .ok (ascii "null")
  | _ => .error .badConversion

/-- The children `n[0]`, ..., `n[n.size()-1]`. Those of a map are looked up by their
decimal index. -/
def Node.children : Node → List (Option Node)
  | .sequence items => items.map some
  | .map entries => (List.range entries.length).map fun x =>
      (entries.find? fun e => e.1 = ascii (toString x)).map Prod.snd
  | _ => []

def optionalText : Option Node → Except LoadError Bytes
  | none => .ok []
  | some n => n.text

def readPattern (a : Node) : Except LoadError Bytes := do
  optionalText (← a.get (ascii "pattern"))

/-- One round of the loop over the appenders; `none` is a `continue`. -/
def readAppender (a : Node) : Except LoadError (Option LogAppendDefine) := do
  match ← a.get (ascii "type") with
  | none => return none
  | some type =>
    let type ← type.text
    if type = ascii "FileLogAppender" then
      match ← a.get (ascii "file") with
      | none => return none
      | some file =>
        let file ← file.text
        let pattern ← readPattern a
        return some ⟨1, pattern, file⟩
    else if type = ascii "StdoutLogAppender" then
      let pattern ← readPattern a
      return some ⟨2, pattern, []⟩
    else return none

def readChild : Option Node → Except LoadError (Option LogAppendDefine)
  | none => .ok none
  | some a => readAppender a

def readAppenders : List (Option Node) → Except LoadError (List LogAppendDefine)
  | [] => .ok []
  | a::rest => do
    let lad ← readChild a
    let lads ← readAppenders rest
    return lad.toList ++ lads

/-- `LexicalCast<std::string, LogDefine>`, behind `YAML::Load`. -/
def load (n : Node) : Except LoadError LogDefine := do
  match ← n.get (ascii "name") with
  | none => .error .nameIsNull
  | some name =>
    let name ← name.text
    let level ← n.get (ascii "level")
    let level ← optionalText level
    let appenders ← n.get (ascii "appenders")
    let appenders ← readAppenders (appenders.elim [] Node.children)
    return ⟨name, .fromString level, appenders⟩

def dumpAppender (a : LogAppendDefine) : Node :=
  let type := if a.type = 1 then
      [(ascii "type", Node.scalar (ascii "FileLogAppender")), (ascii "file", .scalar a.file)]
    else if a.type = 2 then [(ascii "type", .scalar (ascii "StdoutLogAppender"))]
    else []
  let pattern := if a.pattern.isEmpty then [] else [(ascii "pattern", Node.scalar a.pattern)]
  if (type ++ pattern).isEmpty then .null else .map (type ++ pattern)

/-- `LexicalCast<LogDefine, std::string>`, in front of the emitter. -/
def dump (i : LogDefine) : Node :=
  let level := if i.level ≠ .UNKNOW then [(ascii "level", Node.scalar i.level.text)] else []
  let appenders := if i.appenders.isEmpty then []
    else [(ascii "appender", Node.sequence (i.appenders.map dumpAppender))]
  .map ((ascii "name", .scalar i.name)::(level ++ appenders))

/-- The loop of `LexicalCast<std::string, std::set<LogDefine>>`. An undefined child
is emitted as an empty document. -/
def readSet : List (Option Node) → LogDefines → Except LoadError LogDefines
  | [], s => .ok s
  | n::rest, s => do
    let d ← load (n.getD .null)
    readSet rest (s.insert d)

def loadSet (n : Node) : Except LoadError LogDefines := readSet n.children .empty

/-- `LexicalCast<std::set<LogDefine>, std::string>`. -/
def dumpSet (s : LogDefines) : Node :=
  if s.elems.isEmpty then .null else .sequence (s.elems.map dump)

/-- The value of the variable after `fromString(toString())`. An exception of the
reader is caught and leaves the value. -/
def reload (s : LogDefines) : LogDefines :=
  match loadSet (dumpSet s) with
  | .ok v => v
  | .error _ => s

def Loadable (d : LogDefine) : Prop := ∃ n, load n = .ok d

end Yaml

section RoundTrip

theorem fromString_text (level : Level) (h : level ≠ .NOTSET) :
    Level.fromString (if level ≠ .UNKNOW then level.text else []) = level := by
  cases level <;> first | decide | exact absurd rfl h

theorem fromString_set (str : Bytes) : Level.fromString str ≠ .NOTSET := by
  have hite : ∀ (c : Prop) [Decidable c] (x y : Level), x ≠ .NOTSET → y ≠ .NOTSET →
      (if c then x else y) ≠ .NOTSET := by
    intro c _ x y hx hy
    split_ifs
    · exact hx
    · exact hy
  unfold Level.fromString
  repeat' apply hite
  all_goals decide

theorem dump_name (d : LogDefine) :
    (dump d).get (ascii "name") = .ok (some (.scalar d.name)) := by
  simp [dump, Node.get]

theorem dump_level (d : LogDefine) : (dump d).get (ascii "level") =
    .ok (if d.level ≠ .UNKNOW then some (.scalar d.level.text) else none) := by
  have h₁ : ascii "name" ≠ ascii "level" := by decide
  have h₂ : ascii "appender" ≠ ascii "level" := by decide
  simp only [dump, Node.get]
  split_ifs <;> simp only [List.cons_append, List.nil_append, List.find?_cons, h₁, h₂,
    decide_true, decide_false, List.find?_nil, Option.map_some, Option.map_none]

/-- The writer never assigns the key that the reader looks for. -/
theorem dump_appenders (d : LogDefine) : (dump d).get (ascii "appenders") = .ok none := by
  have h₁ : ascii "name" ≠ ascii "appenders" := by decide
  have h₂ : ascii "level" ≠ ascii "appenders" := by decide
  have h₃ : ascii "appender" ≠ ascii "appenders" := by decide
  simp only [dump, Node.get]
  split_ifs <;> simp only [List.cons_append, List.nil_append, List.find?_cons, h₁, h₂, h₃,
    decide_false, List.find?_nil, Option.map_none]

theorem load_dump (d : LogDefine) (h : d.level ≠ .NOTSET) :
    load (dump d) = .ok { d with appenders := [] } := by
  have hlevel := fromString_text d.level h
  rw [load, dump_name, dump_level, dump_appenders]
  by_cases hu : d.level = .UNKNOW
  · rw [if_neg (not_not.mpr hu)] at hlevel ⊢
    simp only [bind, Except.bind, Node.text, optionalText, Option.elim_none, readAppenders, pure,
      Except.pure, hlevel]
  · rw [if_pos hu] at hlevel ⊢
    simp only [bind, Except.bind, Node.text, optionalText, Option.elim_none, readAppenders, pure,
      Except.pure, hlevel]

theorem ok_of_bind {ε α β : Type} {x : Except ε α} {f : α → Except ε β} {r : β}
    (h : x >>= f = .ok r) : ∃ a, x = .ok a ∧ f a = .ok r := by
  cases x with
  | error e => cases h
  | ok a => exact ⟨a, rfl, h⟩

/-- The reader produces no level but those of `FromString`. -/
theorem loadable_level (d : LogDefine) (h : Loadable d) : d.level ≠ .NOTSET := by
  obtain ⟨n, hn⟩ := h
  obtain ⟨name, -, hn⟩ := ok_of_bind hn
  cases name with
  | none => cases hn
  | some name =>
    obtain ⟨name, -, hn⟩ := ok_of_bind hn
    obtain ⟨level, -, hn⟩ := ok_of_bind hn
    obtain ⟨level, -, hn⟩ := ok_of_bind hn
    obtain ⟨appenders, -, hn⟩ := ok_of_bind hn
    obtain ⟨appenders, -, hn⟩ := ok_of_bind hn
    obtain rfl : ⟨name, .fromString level, appenders⟩ = d := Except.ok.inj hn
    exact fromString_set level

def withoutAppenders (d : LogDefine) : LogDefine := { d with appenders := [] }

theorem withoutAppenders_eq (d : LogDefine) : withoutAppenders d = d ↔ d.appenders = [] := by
  constructor
  · intro h
    exact congrArg LogDefine.appenders h.symm
  · intro h
    rw [withoutAppenders, ← h]

/-- The definitions come back in order, each behind those read before. -/
theorem readSet_dump (ds : List LogDefine) (s : LogDefines)
    (hord : Ordered nameLess LogDefine.name (s.elems ++ ds.map withoutAppenders))
    (hlevel : ∀ d ∈ ds, d.level ≠ .NOTSET) :
    ∃ v, readSet (ds.map fun d => some (dump d)) s = .ok v ∧
      v.elems = s.elems ++ ds.map withoutAppenders := by
  induction ds generalizing s with
  | nil => exact ⟨s, rfl, (List.append_nil _).symm⟩
  | cons d ds ih =>
    obtain ⟨hd, hds⟩ := List.forall_mem_cons.mp hlevel
    have hlast : (s.insert (withoutAppenders d)).elems = s.elems ++ [withoutAppenders d] := by
      apply insert_last
      intro e he
      exact (List.pairwise_append.mp hord).2.2 e he _ List.mem_cons_self
    obtain ⟨v, hv, helems⟩ := ih (s.insert (withoutAppenders d))
      (by rw [hlast, List.append_assoc]; exact hord) hds
    refine ⟨v, ?_, by rw [helems, hlast, List.append_assoc]; rfl⟩
    rw [List.map_cons, readSet, Option.getD_some, load_dump d hd]
    exact hv

theorem loadSet_dumpSet (s : LogDefines) (h : ∀ d ∈ s.elems, d.level ≠ .NOTSET) :
    ∃ v, loadSet (dumpSet s) = .ok v ∧ v.elems = s.elems.map withoutAppenders := by
  have hord : Ordered nameLess LogDefine.name (s.elems.map withoutAppenders) :=
    List.pairwise_map.mpr s.ordered
  obtain ⟨v, hv, helems⟩ := readSet_dump s.elems .empty hord h
  refine ⟨v, ?_, helems⟩
  have hchildren : (dumpSet s).children = s.elems.map fun d => some (dump d) := by
    unfold dumpSet
    cases s.elems with
    | nil => rfl
    | cons d ds => exact List.map_map
  rw [loadSet, hchildren]
  exact hv

theorem LogDefines.ext {s t : LogDefines} (h : s.elems = t.elems) : s = t := by
  cases s
  cases t
  cases h
  rfl

theorem reload_iff (s : LogDefines) (h : ∀ d ∈ s.elems, d.level ≠ .NOTSET) :
    reload s = s ↔ ∀ d ∈ s.elems, d.appenders = [] := by
  obtain ⟨v, hv, helems⟩ := loadSet_dumpSet s h
  have hreload : reload s = v := by rw [reload, hv]
  rw [hreload]
  constructor
  · intro heq d hd
    have hmap : s.elems.map withoutAppenders = s.elems.map id := by
      rw [← helems, heq, List.map_id]
    exact (withoutAppenders_eq d).mp (List.map_inj_left.mp hmap d hd)
  · intro hnil
    apply LogDefines.ext
    have hmap : s.elems.map withoutAppenders = s.elems.map id :=
      List.map_congr_left fun d hd => (withoutAppenders_eq d).mpr (hnil d hd)
    rw [helems, hmap, List.map_id]

/-- A definition that was read once comes back from its text exactly if it has no
appenders, and the configured set survives `fromString(toString())` exactly if none
of its definitions has one. -/
theorem log_config_round_trip_iff (d : LogDefine) (s : LogDefines) (hd : Loadable d)
    (hs : ∀ e ∈ s.elems, Loadable e) :
    (load (dump d) = .ok d ↔ d.appenders = []) ∧
      (reload s = s ↔ ∀ e ∈ s.elems, e.appenders = []) := by
  constructor
  · rw [load_dump d (loadable_level d hd), ← withoutAppenders_eq d]
    exact ⟨fun heq => Except.ok.inj heq, fun heq => congrArg Except.ok heq⟩
  · exact reload_iff s fun e he => loadable_level e (hs e he)

def quietLogger : LogDefine := ⟨ascii "system", .INFO, []⟩

theorem quietLogger_loadable : Loadable quietLogger := ⟨dump quietLogger, load_dump _ (by decide)⟩

theorem log_config_round_trip_quiet : load (dump quietLogger) = .ok quietLogger ∧
    reload ⟨[quietLogger], List.pairwise_singleton _ _⟩ =
      ⟨[quietLogger], List.pairwise_singleton _ _⟩ := by
  have hquiet := log_config_round_trip_iff quietLogger
    ⟨[quietLogger], List.pairwise_singleton _ _⟩ quietLogger_loadable
    (List.forall_mem_singleton.mpr quietLogger_loadable)
  exact ⟨hquiet.1.mpr rfl, hquiet.2.mpr (List.forall_mem_singleton.mpr rfl)⟩

def consoleLogger : LogDefine := ⟨ascii "root", .DEBUG, [⟨2, [], []⟩]⟩

def consoleNode : Node :=
  .map [(ascii "name", .scalar (ascii "root")), (ascii "level", .scalar (ascii "debug")),
    (ascii "appenders", .sequence [.map [(ascii "type", .scalar (ascii "StdoutLogAppender"))]])]

/-- Its appender is lost when the written text is read again. -/
theorem console_appender_lost : load consoleNode = .ok consoleLogger ∧
    load (dump consoleLogger) = .ok { consoleLogger with appenders := [] } ∧
    load (dump consoleLogger) ≠ .ok consoleLogger := by
  have hback := load_dump consoleLogger (by decide)
  refine ⟨by rfl, hback, ?_⟩
  rw [hback]
  intro h
  exact absurd (congrArg LogDefine.appenders (Except.ok.inj h)) (by decide)

end RoundTrip

end Lamb.LogConfig
