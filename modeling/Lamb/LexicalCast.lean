import Lamb.Config
import Lamb.ConfigYaml
import Lamb.Library.OrderedMap
import Mathlib.Data.Finset.Sort

/-!
# LexicalCast

The texts of the configuration values. A container is written as a YAML tree that has the texts
of its elements loaded as its parts, and it is read from the texts that the emitter writes for the
parts. The casts of a nested type are put together from those of the types inside.
-/

set_option autoImplicit false

namespace Lamb.LexicalCast
open Lamb.ByteString Lamb.Http

/-- What the casts use of `yaml-cpp`: `YAML::Load`, which may throw, the emitter, and what it
writes for a number as a key of a map. -/
structure Yaml where
  load : Bytes → Option ConfigYaml.Node
  emit : ConfigYaml.Node → Bytes
  entry : List (Bytes × ConfigYaml.Node) → ℕ → Bytes

/-- `LexicalCast<std::string, T>` and `LexicalCast<T, std::string>`, which may both throw. -/
structure Cast (T : Type) where
  fromStr : Bytes → Option T
  toStr : T → Option Bytes

structure Dictionary (T : Type) where
  entries : List (Bytes × T)
  sorted : OrderedMap.Sorted bytesLess id entries

section Casts

variable (y : Yaml) {T : Type} (c : Cast T)

/-- What `ss << node[i]` writes for each `i` below `node.size()`. -/
def elements : ConfigYaml.Node → List Bytes
  | .null => []
  | .scalar _ => []
  | .sequence items => items.map y.emit
  | .map members => (List.range members.length).map (y.entry members)

/-- A node after a number of calls of `push_back`. -/
def sequenceNode : List ConfigYaml.Node → ConfigYaml.Node
  | [] => .null
  | items => .sequence items

def part (i : T) : Option ConfigYaml.Node := (c.toStr i).bind y.load

def sequence {V : Type} (order : V → List T) (collect : List T → V) : Cast V where
  fromStr v := (y.load v).bind fun node => ((elements y node).mapM c.fromStr).map collect
  toStr v := ((order v).mapM (part y c)).map fun items => y.emit (sequenceNode items)

def vector : Cast (List T) := sequence y c id id

def list : Cast (List T) := sequence y c id id

def set [LinearOrder T] : Cast (Finset T) := sequence y c (fun v => v.sort) List.toFinset

def unorderedSet [DecidableEq T] (order : Finset T → List T) : Cast (Finset T) :=
  sequence y c order List.toFinset

def members : ConfigYaml.Node → Option (List (Bytes × ConfigYaml.Node))
  | .null => some []
  | .scalar _ => some []
  | .sequence items => if items.isEmpty then some [] else none
  | .map members => some members

def mapNode : List (Bytes × ConfigYaml.Node) → ConfigYaml.Node
  | [] => .null
  | members => .map members

def Dictionary.insertAll (es : List (Bytes × T)) : Dictionary T where
  entries := es.foldl (fun m e => OrderedMap.insert bytesLess id e.1 e.2 m) []
  sorted := OrderedMap.foldl_insert_sorted bytesLess_order es [] .nil

def readMember (it : Bytes × ConfigYaml.Node) : Option (Bytes × T) :=
  (c.fromStr (y.emit it.2)).map fun v => (it.1, v)

def writeMember (i : Bytes × T) : Option (Bytes × ConfigYaml.Node) :=
  (part y c i.2).map fun node => (i.1, node)

def dictionary (order : Dictionary T → List (Bytes × T)) : Cast (Dictionary T) where
  fromStr v := (y.load v).bind fun node => (members node).bind fun ms =>
    (ms.mapM (readMember y c)).map Dictionary.insertAll
  toStr v := ((order v).mapM (writeMember y c)).map fun ms => y.emit (mapNode ms)

def map : Cast (Dictionary T) := dictionary y c Dictionary.entries

def unorderedMap (order : Dictionary T → List (Bytes × T)) : Cast (Dictionary T) :=
  dictionary y c order

end Casts

/-! ## Round trips -/

section Kept

variable (y : Yaml) {T : Type} (c : Cast T)

/-- The emitter and `YAML::Load` keep a tree. -/
def Yaml.Reloads (node : ConfigYaml.Node) : Prop := y.load (y.emit node) = some node

/-- The text of the value is what the emitter and `LoadFromYaml` write for a tree that the emitter
keeps, and it is read as the value. -/
def Kept (v : T) : Prop :=
  ∃ node, c.toStr v = some (y.emit node) ∧ y.Reloads node ∧
    ConfigYaml.nodeText y.emit node = y.emit node ∧ c.fromStr (y.emit node) = some v

variable {y c}

theorem kept_part {i : T} (h : Kept y c i) :
    ∃ node, part y c i = some node ∧ c.fromStr (y.emit node) = some i := by
  obtain ⟨node, hto, hload, -, hfrom⟩ := h
  refine ⟨node, ?_, hfrom⟩
  rw [part, hto]
  exact hload

theorem kept_parts {l : List T} (h : ∀ i ∈ l, Kept y c i) :
    ∃ items, l.mapM (part y c) = some items ∧ (items.map y.emit).mapM c.fromStr = some l := by
  induction l with
  | nil => exact ⟨[], rfl, rfl⟩
  | cons i l ih =>
    obtain ⟨node, hpart, hfrom⟩ := kept_part (h i (.head l))
    obtain ⟨items, hparts, hfroms⟩ := ih fun j hj => h j (.tail i hj)
    refine ⟨node::items, ?_, ?_⟩
    · simp [hpart, hparts]
    · simp [hfrom, hfroms]

theorem kept_members {l : List (Bytes × T)} (h : ∀ i ∈ l, Kept y c i.2) :
    ∃ ms, l.mapM (writeMember y c) = some ms ∧ ms.mapM (readMember y c) = some l := by
  induction l with
  | nil => exact ⟨[], rfl, rfl⟩
  | cons i l ih =>
    obtain ⟨node, hpart, hfrom⟩ := kept_part (h i (.head l))
    obtain ⟨ms, hwrite, hread⟩ := ih fun j hj => h j (.tail i hj)
    refine ⟨(i.1, node)::ms, ?_, ?_⟩
    · simp [writeMember, hpart, hwrite]
    · simp [readMember, hfrom, hread]

theorem elements_sequenceNode (items : List ConfigYaml.Node) :
    elements y (sequenceNode items) = items.map y.emit := by
  cases items <;> rfl

theorem members_mapNode (ms : List (Bytes × ConfigYaml.Node)) : members (mapNode ms) = some ms := by
  cases ms <;> rfl

theorem sequence_kept {V : Type} {order : V → List T} {collect : List T → V} {v : V}
    (h : ∀ i ∈ order v, Kept y c i) (hcollect : collect (order v) = v)
    (hreloads : ∀ items, (order v).mapM (part y c) = some items →
      y.Reloads (sequenceNode items)) :
    Kept y (sequence y c order collect) v := by
  obtain ⟨items, hparts, hfroms⟩ := kept_parts h
  have hload : y.load (y.emit (sequenceNode items)) = some (sequenceNode items) :=
    hreloads items hparts
  refine ⟨sequenceNode items, ?_, hload, ?_, ?_⟩
  · simp only [sequence, hparts, Option.map_some]
  · cases items <;> rfl
  · simp only [sequence, hload, Option.bind_some, elements_sequenceNode, hfroms, Option.map_some,
      hcollect]

theorem insertAll_entries {d : Dictionary T} {es : List (Bytes × T)} (h : es.Perm d.entries) :
    Dictionary.insertAll es = d := by
  obtain ⟨entries, hsorted⟩ := d
  have hentries := OrderedMap.foldl_insert_entries bytesLess_order es entries hsorted h
  simp only [Dictionary.insertAll, hentries]

theorem dictionary_kept {order : Dictionary T → List (Bytes × T)} {v : Dictionary T}
    (h : ∀ i ∈ order v, Kept y c i.2) (horder : (order v).Perm v.entries)
    (hreloads : ∀ ms, (order v).mapM (writeMember y c) = some ms → y.Reloads (mapNode ms)) :
    Kept y (dictionary y c order) v := by
  obtain ⟨ms, hwrite, hread⟩ := kept_members h
  have hload : y.load (y.emit (mapNode ms)) = some (mapNode ms) := hreloads ms hwrite
  refine ⟨mapNode ms, ?_, hload, ?_, ?_⟩
  · simp only [dictionary, hwrite, Option.map_some]
  · cases ms <;> rfl
  · simp only [dictionary, hload, Option.bind_some, members_mapNode, hread, Option.map_some,
      insertAll_entries horder]

end Kept

/-! ## Nested types -/

section Nested

variable (y : Yaml) {T : Type} (c : Cast T) (P : T → Prop)

def ScalarText (v : T) : Prop :=
  ∃ text, c.toStr v = some text ∧ y.load text = some (.scalar text) ∧
    y.emit (.scalar text) = text ∧ c.fromStr text = some v

def Elements (es : List T) : Prop :=
  (∀ i ∈ es, P i) ∧ ∀ items, es.mapM (part y c) = some items → y.Reloads (sequenceNode items)

def Members (es : List (Bytes × T)) : Prop :=
  (∀ i ∈ es, P i.2) ∧ ∀ ms, es.mapM (writeMember y c) = some ms → y.Reloads (mapNode ms)

/-- The types that the templates put together, each with its casts and the values that are
considered: those with scalars that stay as they are and with trees that are kept. -/
inductive Nested : (T : Type) → Cast T → (T → Prop) → Prop
  | scalar {T : Type} (c : Cast T) : Nested T c (ScalarText y c)
  | vector {T : Type} {c : Cast T} {P : T → Prop} (h : Nested T c P) :
      Nested (List T) (vector y c) (Elements y c P)
  | list {T : Type} {c : Cast T} {P : T → Prop} (h : Nested T c P) :
      Nested (List T) (list y c) (Elements y c P)
  | set {T : Type} [LinearOrder T] {c : Cast T} {P : T → Prop} (h : Nested T c P) :
      Nested (Finset T) (set y c) fun v => Elements y c P v.sort
  | unorderedSet {T : Type} [DecidableEq T] {c : Cast T} {P : T → Prop} (h : Nested T c P)
      (order : Finset T → List T) (horder : ∀ v, (order v).toFinset = v) :
      Nested (Finset T) (unorderedSet y c order) fun v => Elements y c P (order v)
  | map {T : Type} {c : Cast T} {P : T → Prop} (h : Nested T c P) :
      Nested (Dictionary T) (map y c) fun v => Members y c P v.entries
  | unorderedMap {T : Type} {c : Cast T} {P : T → Prop} (h : Nested T c P)
      (order : Dictionary T → List (Bytes × T)) (horder : ∀ v, (order v).Perm v.entries) :
      Nested (Dictionary T) (unorderedMap y c order) fun v => Members y c P (order v)

variable {y c P}

theorem nested_kept (h : Nested y T c P) (v : T) (hv : P v) : Kept y c v := by
  induction h with
  | scalar c =>
    obtain ⟨text, hto, hload, hemit, hfrom⟩ := hv
    refine ⟨.scalar text, ?_, ?_, hemit.symm, ?_⟩
    · rw [hto, hemit]
    · rw [Yaml.Reloads, hemit, hload]
    · rw [hemit, hfrom]
  | vector h ih => exact sequence_kept (fun i hi => ih i (hv.1 i hi)) rfl hv.2
  | list h ih => exact sequence_kept (fun i hi => ih i (hv.1 i hi)) rfl hv.2
  | set h ih => exact sequence_kept (fun i hi => ih i (hv.1 i hi)) (v.sort_toFinset _) hv.2
  | unorderedSet h order horder ih =>
    exact sequence_kept (fun i hi => ih i (hv.1 i hi)) (horder v) hv.2
  | map h ih => exact dictionary_kept (fun i hi => ih i.2 (hv.1 i hi)) (.refl _) hv.2
  | unorderedMap h order horder ih =>
    exact dictionary_kept (fun i hi => ih i.2 (hv.1 i hi)) (horder v) hv.2

/-- `ConfigVar::toString`, which catches what the cast throws. -/
def toString {σ : Type} (c : Cast T) (var : Config.ConfigVar T σ) : Bytes :=
  (c.toStr var.val).getD []

/-- Whatever type the templates put together, a variable that is given the text of another one is
set to its value, and so is a variable that finds in a configuration file the tree of this text. -/
theorem text_sets_value (h : Nested y T c P) {σ : Type} (eq : T → T → Bool)
    (var other : Config.ConfigVar T σ) (w : σ) (hv : P other.val) :
    Config.fromString eq c.fromStr var (toString c other) w =
      (false, Config.setValue eq var other.val w) ∧
    ∃ node, y.load (toString c other) = some node ∧
      Config.fromString eq c.fromStr var (ConfigYaml.nodeText y.emit node) w =
        (false, Config.setValue eq var other.val w) := by
  obtain ⟨node, hto, hload, htext, hfrom⟩ := nested_kept h other.val hv
  have hstring : toString c other = y.emit node := by rw [toString, hto, Option.getD_some]
  have hset : Config.fromString eq c.fromStr var (y.emit node) w =
      (false, Config.setValue eq var other.val w) := by
    rw [Config.fromString, hfrom]
  refine ⟨by rw [hstring, hset], node, ?_, by rw [htext, hset]⟩
  rw [hstring]
  exact hload

end Nested

/-- `boost::lexical_cast` between the numbers of one digit and their texts. -/
def digitCast : Cast ℕ where
  fromStr
    | [c] => if 48 ≤ c ∧ c ≤ 57 then some (c.toNat-48) else none
    | _ => none
  toStr n := if n < 10 then some [48+n.toUInt8] else none

def numbers : ConfigYaml.Node := .sequence [.scalar (ascii "1"), .scalar (ascii "2")]

def blockEmit : ConfigYaml.Node → Bytes
  | .scalar text => text
  | .sequence [.scalar a, .scalar b] => ascii "- " ++ a ++ ascii "\n- " ++ b
  | .map [(key, .sequence [.scalar a, .scalar b])] =>
    key ++ ascii ":\n  - " ++ a ++ ascii "\n  - " ++ b
  | _ => ascii "~"

def blockYaml : Yaml where
  load text := [.scalar (ascii "1"), .scalar (ascii "2"), numbers,
    .map [(ascii "key1", numbers)]].find? fun node => blockEmit node = text
  emit := blockEmit
  entry _ _ := []

def intVecs (val : Dictionary (List ℕ)) : Config.ConfigVar (Dictionary (List ℕ)) Unit :=
  { name := ascii "global.int_vecs", description := [], val := val, cbs := [] }

theorem digit_scalar (n : ℕ) (hn : n = 1 ∨ n = 2) : ScalarText blockYaml digitCast n := by
  rcases hn with rfl | rfl
  · exact ⟨ascii "1", rfl, rfl, rfl, rfl⟩
  · exact ⟨ascii "2", rfl, rfl, rfl, rfl⟩

theorem int_vecs_set :
    let cast := map blockYaml (vector blockYaml digitCast)
    let eq := fun a b : Dictionary (List ℕ) => a.entries == b.entries
    let var := intVecs ⟨[], .nil⟩
    let other := intVecs ⟨[(ascii "key1", [1, 2])], List.pairwise_singleton _ _⟩
    toString cast other = ascii "key1:\n  - 1\n  - 2" ∧
    Config.fromString eq cast.fromStr var (toString cast other) () =
      (false, Config.setValue eq var other.val ()) ∧
    ∃ node, blockYaml.load (toString cast other) = some node ∧
      Config.fromString eq cast.fromStr var (ConfigYaml.nodeText blockYaml.emit node) () =
        (false, Config.setValue eq var other.val ()) := by
  refine ⟨by decide +kernel, ?_⟩
  refine text_sets_value (.map (.vector (.scalar digitCast))) _ _ _ () ⟨?_, ?_⟩
  · intro i hi
    obtain rfl := List.mem_singleton.mp hi
    refine ⟨?_, ?_⟩
    · intro n hn
      apply digit_scalar
      simpa using hn
    · intro items hitems
      obtain rfl := Option.some.inj hitems
      rfl
  · intro ms hms
    obtain rfl := Option.some.inj hms
    rfl

end Lamb.LexicalCast
