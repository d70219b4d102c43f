import Lamb.HttpUrl

/-!
# Config::LoadFromYaml

A YAML tree is listed in pre-order under names that are put together from its keys. A name with
a character that no variable may have ends the descent. Every listed name is looked up among
the registered variables.
-/

set_option autoImplicit false

namespace Lamb.ConfigYaml
open Lamb.ByteString Lamb.Http Lamb.HttpUrl

/-- A YAML tree with scalar keys. -/
inductive Node where
  | null
  | scalar (text : Bytes)
  | sequence (items : List Node)
  | map (members : List (Bytes × Node))

/-- The characters of a name, as `find_first_not_of` gets them. -/
def nameChars : Bytes := ascii "abcdefghikjlmnopqrstuvwxyz._0123456789"

def validName (name : Bytes) : Bool := name.all fun c => nameChars.contains c

def extend (front key : Bytes) : Bytes :=
  if front.isEmpty then key else front ++ ascii "." ++ key

mutual

/-- `ListAllMember`. -/
def listAllMember (front : Bytes) (node : Node) : List (Bytes × Node) :=
  if validName front then
    (front, node)::match node with
      | .map members => listMembers front members
      | _ => []
  else []

def listMembers (front : Bytes) : List (Bytes × Node) → List (Bytes × Node)
  | [] => []
  | (key, value)::members =>
    listAllMember (extend front key) value ++ listMembers front members

end

/-- `ConfigVarBase`, with the type of its value. -/
structure Var where
  name : Bytes
  description : Bytes
  typeName : Bytes
  deriving DecidableEq

structure Registry where
  datas : List (Bytes × Var)
  valid : ∀ e ∈ datas, validName e.1 = true
  named : ∀ e ∈ datas, e.2.name = e.1
  unique : (datas.map Prod.fst).Nodup

/-- `Config::LookupBase`. -/
def Registry.lookupBase (r : Registry) (name : Bytes) : Option Var := r.datas.lookup name

/-- A call of `fromString`. -/
structure Call where
  var : Var
  val : Bytes
  deriving DecidableEq

def nodeText (emit : Node → Bytes) : Node → Bytes
  | .scalar text => text
  | node => emit node

/-- `Config::LoadFromYaml`, by its calls in order. `emit` writes a node into a stream. -/
def loadFromYaml (r : Registry) (emit : Node → Bytes) (root : Node) : List Call :=
  (listAllMember [] root).filterMap fun i =>
    if i.1.isEmpty then none
    else
      match r.lookupBase (i.1.map toLower) with
      | some var => some { var := var, val := nodeText emit i.2 }
      | none => none

theorem lower_name : nameChars.all (fun c => toLower c == c) = true := by decide

theorem toLower_valid {name : Bytes} (h : validName name = true) : name.map toLower = name := by
  have hlower : ∀ c ∈ name, toLower c = c := by
    intro c hc
    have hmem : c ∈ nameChars := by simpa using List.all_eq_true.mp h c hc
    simpa using List.all_eq_true.mp lower_name c hmem
  rw [List.map_congr_left hlower, List.map_id']

/-- `Config::Lookup` with a default value: the variable that is there if it has the type, a new
one if there is none. The name is refused if it has other characters. -/
def Registry.lookup (r : Registry) (name description typeName : Bytes) :
    Except Bytes (Registry × Option Var) :=
  match hfound : r.lookupBase name with
  | some var => .ok (r, if var.typeName = typeName then some var else none)
  | none =>
    if hvalid : validName name = true then
      let var : Var := { name := name.map toLower, description := description, typeName := typeName }
      .ok ({
        datas := (name, var)::r.datas
        valid := by
          rw [List.forall_mem_cons]
          exact ⟨hvalid, r.valid⟩
        named := by
          rw [List.forall_mem_cons]
          exact ⟨toLower_valid hvalid, r.named⟩
        unique := by
          rw [List.map_cons, List.nodup_cons]
          refine ⟨?_, r.unique⟩
          intro hmem
          obtain ⟨e, he, heq⟩ := List.mem_map.mp hmem
          simpa [heq] using List.lookup_eq_none_iff.mp hfound e he }, some var)
    else .error name

/-- The name of the node that a path of keys leads to: the keys behind the leading empty ones,
joined by dots. -/
def dotted (path : List Bytes) : Bytes := (ascii ".").intercalate (path.dropWhile List.isEmpty)

mutual

/-- All nodes of a tree in pre-order, each behind its path of keys. -/
def nodes (path : List Bytes) (node : Node) : List (List Bytes × Node) :=
  (path, node)::match node with
    | .map members => memberNodes path members
    | _ => []

def memberNodes (path : List Bytes) : List (Bytes × Node) → List (List Bytes × Node)
  | [] => []
  | (key, value)::members => nodes (path ++ [key]) value ++ memberNodes path members

end

def Registry.var (r : Registry) (name : Bytes) : Option Var :=
  (r.datas.map Prod.snd).find? fun v => v.name == name

/-- The call that a node makes: one on the variable that has its name, if the name is not
empty and there is such a variable. -/
def addressed (r : Registry) (emit : Node → Bytes) (n : List Bytes × Node) : Option Call :=
  if dotted n.1 = [] then none
  else (r.var (dotted n.1)).map fun v => { var := v, val := nodeText emit n.2 }

section Names

theorem nodes_eq (path : List Bytes) (node : Node) : nodes path node =
    (path, node)::match node with
      | .map members => memberNodes path members
      | _ => [] := by
  cases node <;> rfl

theorem listAllMember_eq (front : Bytes) (node : Node) : listAllMember front node =
    if validName front then
      (front, node)::match node with
        | .map members => listMembers front members
        | _ => []
    else [] := by
  cases node <;> rfl

theorem intercalate_concat (sep : Bytes) {keys : List Bytes} (h : keys ≠ []) (key : Bytes) :
    sep.intercalate (keys ++ [key]) = sep.intercalate keys ++ sep ++ key := by
  induction keys with
  | nil => exact absurd rfl h
  | cons front keys ih =>
    cases keys with
    | nil => simp
    | cons next keys =>
      rw [List.cons_append, List.cons_append, List.intercalate_cons_cons, ← List.cons_append,
        ih (List.cons_ne_nil _ _), List.intercalate_cons_cons]
      simp only [List.append_assoc]

theorem intercalate_ne_nil (sep : Bytes) {front : Bytes} (h : front ≠ []) (keys : List Bytes) :
    sep.intercalate (front::keys) ≠ [] := by
  cases keys with
  | nil => rwa [List.intercalate_singleton]
  | cons next keys =>
    rw [List.intercalate_cons_cons]
    simp [h]

theorem dotted_concat (path : List Bytes) (key : Bytes) :
    dotted (path ++ [key]) = extend (dotted path) key := by
  rw [dotted, dotted, List.dropWhile_append]
  cases hkeys : path.dropWhile List.isEmpty with
  | nil => cases key <;> simp [extend]
  | cons front keys =>
    have hfront : front ≠ [] := by
      have hhead := List.head?_dropWhile_not List.isEmpty path
      simpa [hkeys] using hhead
    have hname := intercalate_ne_nil (ascii ".") hfront keys
    rw [if_neg (by simp), intercalate_concat _ (List.cons_ne_nil _ _), extend,
      if_neg (by simpa using hname)]

theorem validName_append (s t : Bytes) : validName (s ++ t) = (validName s && validName t) :=
  List.all_append

theorem extend_invalid {front : Bytes} (h : validName front = false) (key : Bytes) :
    validName (extend front key) = false := by
  have hne : front.isEmpty = false := by
    cases front with
    | nil => cases h
    | cons c rest => rfl
  rw [extend, hne, List.append_assoc, if_neg (by simp), validName_append, h, Bool.false_and]

mutual

theorem nodes_invalid (path : List Bytes) (node : Node) (h : validName (dotted path) = false) :
    ∀ n ∈ nodes path node, validName (dotted n.1) = false := by
  rw [nodes_eq, List.forall_mem_cons]
  refine ⟨h, ?_⟩
  cases node with
  | null => simp
  | scalar => simp
  | sequence => simp
  | map members => exact memberNodes_invalid path members h

theorem memberNodes_invalid (path : List Bytes) (members : List (Bytes × Node))
    (h : validName (dotted path) = false) :
    ∀ n ∈ memberNodes path members, validName (dotted n.1) = false := by
  cases members with
  | nil => simp [memberNodes]
  | cons member members =>
    intro n hn
    rw [memberNodes, List.mem_append] at hn
    rcases hn with hhead | htail
    · have hkey : validName (dotted (path ++ [member.1])) = false := by
        rw [dotted_concat]
        exact extend_invalid h _
      exact nodes_invalid (path ++ [member.1]) member.2 hkey n hhead
    · exact memberNodes_invalid path members h n htail

end

mutual

/-- The list has the nodes whose names are valid, although it never looks below the others. -/
theorem listAllMember_nodes (path : List Bytes) (node : Node) :
    listAllMember (dotted path) node =
      ((nodes path node).filter fun n => validName (dotted n.1)).map fun n => (dotted n.1, n.2) := by
  by_cases h : validName (dotted path) = true
  · rw [listAllMember_eq, if_pos h, nodes_eq, List.filter_cons_of_pos (by exact h), List.map_cons]
    congr 1
    cases node with
    | null => rfl
    | scalar => rfl
    | sequence => rfl
    | map members => exact listMembers_nodes path members
  · have hnone : (nodes path node).filter (fun n => validName (dotted n.1)) = [] := by
      rw [List.filter_eq_nil_iff]
      intro n hn
      simp [nodes_invalid path node (by simpa using h) n hn]
    rw [listAllMember_eq, if_neg h, hnone, List.map_nil]

theorem listMembers_nodes (path : List Bytes) (members : List (Bytes × Node)) :
    listMembers (dotted path) members = ((memberNodes path members).filter
      fun n => validName (dotted n.1)).map fun n => (dotted n.1, n.2) := by
  cases members with
  | nil => rfl
  | cons member members =>
    rw [listMembers, memberNodes, List.filter_append, List.map_append, ← dotted_concat,
      listAllMember_nodes (path ++ [member.1]) member.2, listMembers_nodes path members]

end

end Names

section Registry

variable {r : Registry} {emit : Node → Bytes} {v : Var} {name : Bytes}

theorem lookup_named {datas : List (Bytes × Var)} (h : ∀ e ∈ datas, e.2.name = e.1) (name : Bytes) :
    datas.lookup name = (datas.map Prod.snd).find? fun v => v.name == name := by
  induction datas with
  | nil => rfl
  | cons e datas ih =>
    have hname := h e (.head _)
    by_cases heq : name = e.1
    · rw [List.lookup_cons, List.map_cons, List.find?_cons_of_pos (by simp [hname, heq]), heq,
        beq_self_eq_true]
    · rw [List.lookup_cons, List.map_cons,
        List.find?_cons_of_neg (by simpa [hname] using Ne.symm heq),
        ← ih fun d hd => h d (.tail _ hd), beq_false_of_ne heq]

theorem lookupBase_eq (name : Bytes) : r.lookupBase name = r.var name := lookup_named r.named name

theorem var_iff (hv : v ∈ r.datas.map Prod.snd) : r.var name = some v ↔ name = v.name := by
  obtain ⟨e, he, rfl⟩ := List.mem_map.mp hv
  constructor
  · intro h
    have hname := List.find?_some h
    exact (by simpa using hname : e.2.name = name).symm
  · rintro rfl
    obtain ⟨front, back, heq⟩ := List.append_of_mem he
    have hunique := r.unique
    rw [heq, List.map_append, List.map_cons, List.nodup_append] at hunique
    rw [← lookupBase_eq, Registry.lookupBase, List.lookup_eq_some_iff, r.named e he]
    refine ⟨front, back, heq, ?_⟩
    intro d hd
    simpa using (hunique.2.2 d.1 (List.mem_map_of_mem hd) e.1 (.head _)).symm

theorem var_registered (h : r.var name = some v) : v ∈ r.datas.map Prod.snd ∧ v.name = name :=
  ⟨List.mem_of_find?_eq_some h, by simpa using List.find?_some h⟩

theorem var_invalid (h : validName name = false) : r.var name = none := by
  cases hvar : r.var name with
  | none => rfl
  | some v =>
    obtain ⟨hmem, hname⟩ := var_registered hvar
    obtain ⟨e, he, rfl⟩ := List.mem_map.mp hmem
    have hvalid := r.valid e he
    rw [← r.named e he, hname, h] at hvalid
    cases hvalid

theorem addressed_invalid {n : List Bytes × Node} (h : validName (dotted n.1) = false) :
    addressed r emit n = none := by
  rw [addressed, var_invalid h]
  split_ifs <;> rfl

/-- The calls are those that the nodes of the tree make, in pre-order. -/
theorem loadFromYaml_nodes (root : Node) :
    loadFromYaml r emit root = (nodes [] root).filterMap (addressed r emit) := by
  have hlist : listAllMember [] root = ((nodes [] root).filter fun n => validName (dotted n.1)).map
      fun n => (dotted n.1, n.2) := listAllMember_nodes [] root
  rw [loadFromYaml, hlist, List.filterMap_map, List.filterMap_filter]
  apply List.filterMap_congr
  intro n _
  by_cases h : validName (dotted n.1) = true
  · rw [if_pos h, Function.comp_apply, addressed, toLower_valid h, lookupBase_eq]
    by_cases hempty : dotted n.1 = []
    · simp [hempty]
    · rw [if_neg (by simpa using hempty), if_neg hempty]
      cases r.var (dotted n.1) <;> rfl
  · rw [if_neg h, addressed_invalid (by simpa using h)]

/-- The calls on one variable are made by the nodes with its name. -/
theorem calls_on (hv : v ∈ r.datas.map Prod.snd) (ns : List (List Bytes × Node)) :
    (ns.filterMap (addressed r emit)).filter (fun c => c.var = v) =
      (ns.filter fun n => dotted n.1 ≠ [] ∧ dotted n.1 = v.name).map
        fun n => { var := v, val := nodeText emit n.2 } := by
  induction ns with
  | nil => rfl
  | cons n ns ih =>
    by_cases hempty : dotted n.1 = []
    · have hcall : addressed r emit n = none := by rw [addressed, if_pos hempty]
      rw [List.filterMap_cons_none hcall, ih, List.filter_cons_of_neg (by simp [hempty])]
    · by_cases hname : dotted n.1 = v.name
      · have hcall : addressed r emit n = some { var := v, val := nodeText emit n.2 } := by
          rw [addressed, if_neg hempty, (var_iff hv).mpr hname]
          rfl
        rw [List.filterMap_cons_some hcall, List.filter_cons_of_pos (by simp), ih,
          List.filter_cons_of_pos (by rw [decide_eq_true_eq]; exact ⟨hempty, hname⟩), List.map_cons]
      · rw [List.filter_cons_of_neg (by simp [hname])]
        cases hcall : addressed r emit n with
        | none => rw [List.filterMap_cons_none hcall, ih]
        | some c =>
          have hother : c.var ≠ v := by
            rintro rfl
            rw [addressed, if_neg hempty, Option.map_eq_some_iff] at hcall
            obtain ⟨w, hw, rfl⟩ := hcall
            exact hname (var_registered hw).2.symm
          rw [List.filterMap_cons_some hcall, List.filter_cons_of_neg (by simpa using hother), ih]

end Registry

/-- Loading calls `fromString` once for each node with the name of a registered variable, in
pre-order, on that variable and on no other; a name that is refused ends the matter for its
node and for all nodes below. -/
theorem load_addresses (r : Registry) (emit : Node → Bytes) (root : Node) :
    loadFromYaml r emit root = (nodes [] root).filterMap (addressed r emit) ∧
    (∀ v ∈ r.datas.map Prod.snd, (loadFromYaml r emit root).filter (fun c => c.var = v) =
      ((nodes [] root).filter fun n => dotted n.1 ≠ [] ∧ dotted n.1 = v.name).map
        fun n => { var := v, val := nodeText emit n.2 }) ∧
    (∀ c ∈ loadFromYaml r emit root, c.var ∈ r.datas.map Prod.snd) ∧
    (∀ path node, validName (dotted path) = false →
      ∀ n ∈ nodes path node, addressed r emit n = none) := by
  refine ⟨loadFromYaml_nodes root, ?_, ?_, ?_⟩
  · intro v hv
    rw [loadFromYaml_nodes, calls_on hv]
  · intro c hc
    rw [loadFromYaml_nodes] at hc
    obtain ⟨n, -, hcall⟩ := List.mem_filterMap.mp hc
    rw [addressed] at hcall
    split_ifs at hcall
    obtain ⟨w, hw, rfl⟩ := Option.map_eq_some_iff.mp hcall
    exact (var_registered hw).1
  · intro path node h n hn
    exact addressed_invalid (nodes_invalid path node h n hn)

end Lamb.ConfigYaml
