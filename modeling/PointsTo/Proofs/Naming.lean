import PointsTo.Program.Build
import PointsTo.Proofs.Delivers
import PointsTo.Proofs.Wiring

/-! The names of a program under construction.

    A name in a description refers to a declared object or to one of the two special objects, which
    come into being when they are first named. `Named` ties names, nodes and allocations to each
    other: every node was made for one name, with the allocation that the name's declaration gives. -/

namespace PointsTo

/-! ### Declarations -/

/-- What the name of an object refers to. -/
inductive ObjRef where
  | declared (name : String)
  | special (which : SpecialObject)
  deriving DecidableEq

/-- The object that a name in a description refers to. -/
def ObjRef.ofName (name : String) : ObjRef :=
  if name = "blackhole" then .special .blackHole
  else if name = "constant" then .special .constant
  else .declared name

/-- What refers to the whole object. -/
def ObjNode.ref (o : ObjNode) : ObjRef :=
  match o.kind with
  | .special which => .special which
  | _ => .declared o.name

/-- The kind of a declared object. -/
def ObjectDesc.kind (d : ObjectDesc) : ObjKind := if d.dummy then .dummy else .base

/-- The allocation of a declared object. -/
def ObjectDesc.memory (d : ObjectDesc) : Memory :=
  if d.dummy then { name := d.name, alloc := .special, ty := d.ty }
  else {
    name := d.name
    alloc := d.alloc
    ty := d.ty
    isArray := d.isArray
    inRecursion := d.inRecursion
    fieldInsensitive := d.fieldInsensitive }

/-- The allocation of a special object. -/
def SpecialObject.memory : SpecialObject → Memory
  | .blackHole => { name := "blackhole", alloc := .special, fieldInsensitive := true }
  | .constant => { name := "constant", alloc := .constant, fieldInsensitive := true }

/-- Does the declaration of what is referred to give the allocation? -/
def IsMemory (objects : List ObjectDesc) (r : ObjRef) (m : Memory) : Prop :=
  match r with
  | .declared name => ∃ d ∈ objects, d.name = name ∧ m = d.memory
  | .special which => m = which.memory

theorem IsMemory.mono {objects objects' : List ObjectDesc} (hsub : ∀ d ∈ objects, d ∈ objects')
    {r : ObjRef} {m : Memory} (h : IsMemory objects r m) : IsMemory objects' r m := by
  cases r with
  | declared name =>
    obtain ⟨d, hd, hname, hm⟩ := h
    exact ⟨d, hsub d hd, hname, hm⟩
  | special which => exact h

namespace Builder

/-- The object that is referred to, if it is there. -/
def find? (b : Builder) : ObjRef → Option NodeId
  | .declared name => b.objectIds[name]?
  | .special .blackHole => b.graph.blackHole?
  | .special .constant => b.graph.constant?

theorem find?_congr {b b' : Builder} (hobjects : b'.objectIds = b.objectIds)
    (hblackHole : b'.graph.blackHole? = b.graph.blackHole?)
    (hconstant : b'.graph.constant? = b.graph.constant?) (r : ObjRef) : b'.find? r = b.find? r := by
  cases r with
  | declared name => simp only [find?, hobjects]
  | special which =>
    cases which with
    | blackHole => exact hblackHole
    | constant => exact hconstant

/-! ### The invariant -/

/-- Names, nodes and allocations belong together. -/
structure Named (objects : List ObjectDesc) (b : Builder) : Prop where
  values : ∀ {name : String} {id : NodeId},
    b.valueIds[name]? = some id ↔ b.graph.nodes[id]? = some (.value name)
  refs : ∀ {r id}, b.find? r = some id ↔ ∃ o, b.graph.obj id = .ok o ∧ o.ref = r
  memory : ∀ {id o}, b.graph.obj id = .ok o → IsMemory objects o.ref (b.graph.mem o.mem)
  placeholder : ∀ {id o}, b.graph.obj id = .ok o → o.kind = .dummy →
    (b.graph.mem o.mem).alloc = .special
  declared : ∀ d ∈ objects, ∃ id o, b.graph.obj id = .ok o ∧ o.ref = .declared d.name ∧
    b.graph.mem o.mem = d.memory
  objects : ∀ {id}, id ∈ b.graph.objects.toList ↔ b.graph.HasObj id
  objects_nodup : b.graph.objects.toList.Nodup
  whole : ∀ {id o}, b.graph.obj id = .ok o → o.isField = false
  mem : ∀ {id o}, b.graph.obj id = .ok o → o.mem < b.graph.mems.size
  memInj : ∀ {x y o o'}, b.graph.obj x = .ok o → b.graph.obj y = .ok o' → o.mem = o'.mem → x = y

variable {objects objects' : List ObjectDesc} {b b' : Builder}

/-- Memory that the program does not own has no fields. -/
theorem Named.fieldInsensitive_of_special (hn : Named objects b) {id : NodeId} {o : ObjNode}
    (ho : b.graph.obj id = .ok o) (hs : o.isSpecial = true) :
    (b.graph.mem o.mem).fieldInsensitive = true := by
  cases hk : o.kind with
  | base | field | dummy => simp [ObjNode.isSpecial, hk] at hs
  | special which =>
    have hmem := hn.memory ho
    rw [ObjNode.ref, hk] at hmem
    rw [show b.graph.mem o.mem = which.memory from hmem]
    cases which <;> rfl

/-- No objects were added. -/
theorem Named.keep (hn : Named objects b)
    (hvalues : ∀ {name : String} {id : NodeId},
      b'.valueIds[name]? = some id ↔ b'.graph.nodes[id]? = some (.value name))
    (hfind : ∀ r, b'.find? r = b.find? r)
    (hobj : ∀ {id : NodeId} {o}, b'.graph.obj id = .ok o ↔ b.graph.obj id = .ok o)
    (hmems : b'.graph.mems = b.graph.mems) (hobjects : b'.graph.objects = b.graph.objects) :
    Named objects b' := by
  have hmem : ∀ m, b'.graph.mem m = b.graph.mem m := fun m => by rw [Graph.mem, Graph.mem, hmems]
  refine ⟨hvalues, ?_, ?_, ?_, ?_, ?_, hobjects ▸ hn.objects_nodup, ?_, ?_, ?_⟩
  · intro r id
    rw [hfind, hn.refs]
    simp only [hobj]
  · intro id o ho
    rw [hmem]
    exact hn.memory (hobj.mp ho)
  · intro id o ho hdummy
    rw [hmem]
    exact hn.placeholder (hobj.mp ho) hdummy
  · intro d hd
    obtain ⟨id, o, ho, href, hm⟩ := hn.declared d hd
    exact ⟨id, o, hobj.mpr ho, href, (hmem _).trans hm⟩
  · intro id
    rw [hobjects, hn.objects, Graph.HasObj, Graph.HasObj]
    simp only [hobj]
  · exact fun ho => hn.whole (hobj.mp ho)
  · intro id o ho
    rw [hmems]
    exact hn.mem (hobj.mp ho)
  · exact fun ho ho' => hn.memInj (hobj.mp ho) (hobj.mp ho')

/-- A statement was added. -/
theorem Named.addStmt (hn : Named objects b) (hvalues : b'.valueIds = b.valueIds)
    (hobjects : b'.objectIds = b.objectIds) {kind : StmtKind} {ty : Option TypeId}
    (ha : Graph.AddsStmt b.graph b'.graph kind ty) : Named objects b' := by
  have hnode : ∀ {id : NodeId} {n}, (∀ s, n ≠ .stmt s) →
      (b'.graph.nodes[id]? = some n ↔ b.graph.nodes[id]? = some n) := by
    intro id n hn
    rw [ha.getElem?_nodes]
    by_cases h : id = b.graph.nodes.size
    · subst h
      simp [(hn _).symm]
    · simp [h]
  refine hn.keep ?_ (find?_congr hobjects ha.blackHole ha.constant) ?_ ha.mems ha.objects
  · intro name id
    rw [hvalues, hn.values, hnode (by simp)]
  · intro id o
    rw [Graph.obj_eq_ok, Graph.obj_eq_ok, hnode (by simp)]

/-! ### New objects -/

/-- `b'` is `b` with one more whole object and its allocation. -/
structure AddsRoot (b b' : Builder) (m : Memory) (kind : ObjKind) : Prop where
  nodes : b'.graph.nodes = b.graph.nodes.push (.object ⟨kind, b.graph.mems.size, m.name⟩)
  mems : b'.graph.mems = b.graph.mems.push m
  objects : b'.graph.objects = b.graph.objects.push b.graph.nodes.size
  edges : b'.graph.edges = b.graph.edges
  stmts : b'.graph.stmts = b.graph.stmts
  readers : b'.graph.readers = b.graph.readers
  definers : b'.graph.definers = b.graph.definers
  seeds : b'.graph.seeds = b.graph.seeds
  names : b'.graph.names = b.graph.names.insert m.name b.graph.nodes.size
  types : b'.types = b.types
  stmtIds : b'.stmtIds = b.stmtIds
  valueIds : b'.valueIds = b.valueIds
  find : ∀ r, b'.find? r = if r = (ObjNode.mk kind b.graph.mems.size m.name).ref
    then some b.graph.nodes.size else b.find? r

namespace AddsRoot

variable {m : Memory} {kind : ObjKind}

theorem getElem?_nodes (ha : AddsRoot b b' m kind) (id : NodeId) :
    b'.graph.nodes[id]? = if id = b.graph.nodes.size
      then some (.object ⟨kind, b.graph.mems.size, m.name⟩) else b.graph.nodes[id]? := by
  rw [ha.nodes, Array.getElem?_push]

theorem keeps (ha : AddsRoot b b' m kind) {id : NodeId} {n : Node}
    (hn : b.graph.nodes[id]? = some n) : b'.graph.nodes[id]? = some n := by
  rw [ha.getElem?_nodes, if_neg (Nat.ne_of_lt (Graph.lt_size_of_getElem? hn)), hn]

theorem obj_iff (ha : AddsRoot b b' m kind) {id : NodeId} {o : ObjNode} : b'.graph.obj id = .ok o ↔
    (id = b.graph.nodes.size ∧ o = ⟨kind, b.graph.mems.size, m.name⟩) ∨ b.graph.obj id = .ok o := by
  rw [Graph.obj_eq_ok, Graph.obj_eq_ok, ha.getElem?_nodes]
  by_cases h : id = b.graph.nodes.size
  · subst h
    simp [eq_comm]
  · simp [h]

theorem mem_self (ha : AddsRoot b b' m kind) : b'.graph.mem b.graph.mems.size = m := by
  simp [Graph.mem, ha.mems]

theorem mem_old (ha : AddsRoot b b' m kind) {i : MemId} (hi : i < b.graph.mems.size) :
    b'.graph.mem i = b.graph.mem i := by
  simp [Graph.mem, ha.mems, Array.getD_eq_getD_getElem?, Array.getElem?_push, Nat.ne_of_lt hi]

end AddsRoot

/-- A first object for what it refers to. -/
theorem Named.addRoot {m : Memory} {kind : ObjKind} (ha : AddsRoot b b' m kind)
    (hn : Named objects b) {r : ObjRef}
    (hr : (ObjNode.mk kind b.graph.mems.size m.name).ref = r) (hfirst : b.find? r = none)
    (hwhole : ∀ base k, kind ≠ .field base k) (hdummy : kind = .dummy → m.alloc = .special)
    (hsub : ∀ d ∈ objects, d ∈ objects') (hmemory : IsMemory objects' r m)
    (hdeclared : ∀ d ∈ objects', d ∈ objects ∨ (r = .declared d.name ∧ m = d.memory)) :
    Named objects' b' where
  values := by
    intro name id
    rw [ha.valueIds, hn.values, ha.getElem?_nodes]
    by_cases h : id = b.graph.nodes.size
    · subst h
      simp
    · simp [h]
  refs := by
    intro r' id
    rw [ha.find, hr]
    simp only [ha.obj_iff]
    by_cases h : r' = r
    · rw [if_pos h, h, Option.some.injEq]
      constructor
      · rintro rfl
        exact ⟨_, Or.inl ⟨rfl, rfl⟩, hr⟩
      · rintro ⟨o, ⟨hid, -⟩ | ho, href⟩
        · exact hid.symm
        · rw [hn.refs.mpr ⟨o, ho, href⟩] at hfirst
          cases hfirst
    · rw [if_neg h, hn.refs]
      constructor
      · rintro ⟨o, ho, href⟩
        exact ⟨o, Or.inr ho, href⟩
      · rintro ⟨o, ⟨-, rfl⟩ | ho, href⟩
        · exact absurd (href.symm.trans hr) h
        · exact ⟨o, ho, href⟩
  memory := by
    intro id o ho
    rcases ha.obj_iff.mp ho with ⟨-, rfl⟩ | ho
    · rw [hr, ha.mem_self]
      exact hmemory
    · rw [ha.mem_old (hn.mem ho)]
      exact (hn.memory ho).mono hsub
  placeholder := by
    intro id o ho hk
    rcases ha.obj_iff.mp ho with ⟨-, rfl⟩ | ho
    · rw [ha.mem_self]
      exact hdummy hk
    · rw [ha.mem_old (hn.mem ho)]
      exact hn.placeholder ho hk
  declared := by
    intro d hd
    rcases hdeclared d hd with hd | ⟨href, hm⟩
    · obtain ⟨id, o, ho, href, hm⟩ := hn.declared d hd
      exact ⟨id, o, ha.obj_iff.mpr (Or.inr ho), href, (ha.mem_old (hn.mem ho)).trans hm⟩
    · exact ⟨_, _, ha.obj_iff.mpr (Or.inl ⟨rfl, rfl⟩), hr.trans href, ha.mem_self.trans hm⟩
  objects := by
    intro id
    rw [ha.objects, Array.toList_push, List.mem_append, List.mem_singleton, hn.objects]
    constructor
    · rintro (⟨o, ho⟩ | rfl)
      · exact ⟨o, ha.obj_iff.mpr (Or.inr ho)⟩
      · exact ⟨_, ha.obj_iff.mpr (Or.inl ⟨rfl, rfl⟩)⟩
    · rintro ⟨o, ho⟩
      rcases ha.obj_iff.mp ho with ⟨hid, -⟩ | ho
      · exact Or.inr hid
      · exact Or.inl ⟨o, ho⟩
  objects_nodup := by
    rw [ha.objects, Array.toList_push, ← List.concat_eq_append]
    exact List.Nodup.concat (fun h => Nat.lt_irrefl _ (hn.objects.mp h).lt_size) hn.objects_nodup
  whole := by
    intro id o ho
    rcases ha.obj_iff.mp ho with ⟨-, rfl⟩ | ho
    · cases kind with
      | field base k => exact absurd rfl (hwhole base k)
      | base | dummy | special w => rfl
    · exact hn.whole ho
  mem := by
    intro id o ho
    rw [ha.mems, Array.size_push]
    rcases ha.obj_iff.mp ho with ⟨-, rfl⟩ | ho
    · exact Nat.lt_succ_self _
    · exact Nat.lt_succ_of_lt (hn.mem ho)
  memInj := by
    intro x y o o' ho ho' hm
    rcases ha.obj_iff.mp ho with ⟨hx, rfl⟩ | ho
    · rcases ha.obj_iff.mp ho' with ⟨hy, -⟩ | ho'
      · exact hx.trans hy.symm
      · exact absurd (hn.mem ho') (hm ▸ Nat.lt_irrefl _)
    · rcases ha.obj_iff.mp ho' with ⟨-, rfl⟩ | ho'
      · exact absurd (hn.mem ho) (hm.symm ▸ Nat.lt_irrefl _)
      · exact hn.memInj ho ho' hm

/-! ### The operations of a builder -/

theorem getElem?_insert_name {α : Type} {t : Std.TreeMap String α} {name name' : String} {a : α} :
    (t.insert name a)[name']? = if name' = name then some a else t[name']? := by
  rw [Std.TreeMap.getElem?_insert]
  by_cases h : name' = name
  · simp [h]
  · rw [if_neg (by simpa [Std.LawfulEqCmp.compare_eq_iff_eq] using Ne.symm h), if_neg h]

theorem named_empty (types : TypeTable) : Named [] { types } := by
  have hnode : ∀ (id : NodeId), (∅ : Graph).nodes[id]? = none := fun _ => rfl
  have hobj : ∀ {id : NodeId} {o}, Graph.obj ∅ id ≠ .ok o := by
    intro id o ho
    rw [Graph.obj_eq_ok, hnode] at ho
    cases ho
  have hnone : ∀ r, find? { types } r = none := by
    intro r
    match r with
    | .declared name => exact Std.TreeMap.getElem?_emptyc
    | .special .blackHole | .special .constant => rfl
  exact {
    values := by simp [hnode]
    refs := by simp [hnone, hobj]
    memory := fun ho => absurd ho hobj
    placeholder := fun ho => absurd ho hobj
    declared := fun _ hd => nomatch hd
    objects := ⟨fun h => absurd h List.not_mem_nil, fun ⟨_, ho⟩ => absurd ho hobj⟩
    objects_nodup := List.nodup_nil
    whole := fun ho => absurd ho hobj
    mem := fun ho => absurd ho hobj
    memInj := fun ho => absurd ho hobj }

/-- Declaring a value. -/
theorem addValue_spec {name : String} (h : b.addValue name = .ok b') :
    b.valueIds[name]? = none ∧ b' = { b with
      graph := (b.graph.addValue name).2, valueIds := b.valueIds.insert name b.graph.nodes.size } := by
  unfold addValue at h
  by_cases hnew : b.valueIds.contains name = true
  · rw [if_pos hnew] at h
    cases h
  · rw [if_neg hnew] at h
    injection h with h
    exact ⟨by simpa using hnew, h.symm⟩

theorem Named.addValue {name : String} (hn : Named objects b) (h : b.addValue name = .ok b') :
    Named objects b' := by
  obtain ⟨hnew, rfl⟩ := addValue_spec h
  have hnodes : ∀ id : NodeId, (b.graph.addValue name).2.nodes[id]? =
      if id = b.graph.nodes.size then some (.value name) else b.graph.nodes[id]? :=
    fun _ => Array.getElem?_push
  refine hn.keep ?_ (fun r => ?_) ?_ rfl rfl
  · intro name' id
    simp only [getElem?_insert_name, hnodes]
    by_cases hname : name' = name
    · subst hname
      rw [if_pos rfl]
      by_cases hid : id = b.graph.nodes.size
      · simp [hid]
      · -- No other node has the name.
        rw [if_neg hid, ← hn.values, hnew]
        simp [Ne.symm hid]
    · rw [if_neg hname, hn.values]
      by_cases hid : id = b.graph.nodes.size
      · simp [hid, Ne.symm hname]
      · rw [if_neg hid]
  · match r with
    | .declared _ | .special .blackHole | .special .constant => rfl
  · intro id o
    rw [Graph.obj_eq_ok, Graph.obj_eq_ok, hnodes]
    by_cases hid : id = b.graph.nodes.size
    · simp [hid]
    · rw [if_neg hid]

theorem ref_of_declared (d : ObjectDesc) (m : MemId) :
    (ObjNode.mk d.kind m d.memory.name).ref = .declared d.name := by
  unfold ObjectDesc.kind ObjectDesc.memory
  split <;> rfl

/-- Declaring an object. -/
theorem addObject_spec {d : ObjectDesc} (h : b.addObject d = .ok b') :
    b.find? (.declared d.name) = none ∧ AddsRoot b b' d.memory d.kind := by
  have hroot : (if d.dummy then b.graph.addDummy d.name d.ty else b.graph.addObject {
      name := d.name
      alloc := d.alloc
      ty := d.ty
      isArray := d.isArray
      inRecursion := d.inRecursion
      fieldInsensitive := d.fieldInsensitive }) = b.graph.addRoot d.memory d.kind := by
    unfold ObjectDesc.memory ObjectDesc.kind
    split <;> rfl
  unfold addObject at h
  by_cases hnew : (b.objectIds.contains d.name || b.valueIds.contains d.name) = true
  · rw [if_pos hnew] at h
    cases h
  rw [if_neg hnew, bind_eq_ok, hroot] at h
  obtain ⟨-, -, h⟩ := h
  injection h with h
  subst h
  simp only [Bool.or_eq_true, not_or] at hnew
  refine ⟨by simpa [find?] using hnew.1, rfl, rfl, rfl, rfl, rfl, rfl, rfl, rfl, rfl, rfl, rfl, rfl,
    fun r => ?_⟩
  rw [ref_of_declared]
  match r with
  | .declared name => simp only [find?, getElem?_insert_name, ObjRef.declared.injEq]
  | .special .blackHole | .special .constant => rfl

theorem addObject_objectIds {d : ObjectDesc} (h : b.addObject d = .ok b') (name : String) :
    b'.objectIds[name]? = if name = d.name then some b.graph.nodes.size else b.objectIds[name]? := by
  have hfind := (addObject_spec h).2.find (.declared name)
  simp only [ref_of_declared, find?, ObjRef.declared.injEq] at hfind
  exact hfind

theorem Named.addObject {d : ObjectDesc} (hn : Named objects b) (h : b.addObject d = .ok b') :
    Named (objects ++ [d]) b' := by
  obtain ⟨hfirst, ha⟩ := addObject_spec h
  refine hn.addRoot ha (ref_of_declared d _) hfirst ?_ ?_ (fun d' hd' => List.mem_append_left _ hd')
    ⟨d, List.mem_append_right _ (List.mem_singleton_self d), rfl, rfl⟩ ?_
  · intro base k
    unfold ObjectDesc.kind
    split <;> simp
  · unfold ObjectDesc.kind ObjectDesc.memory
    split <;> simp
  · intro d' hd'
    rcases List.mem_append.mp hd' with hd' | hd'
    · exact Or.inl hd'
    · rw [List.mem_singleton.mp hd']
      exact Or.inr ⟨rfl, rfl⟩

/-- Naming an object that is there or comes into being. -/
theorem object_spec {name : String} {id : NodeId} (h : b.object name = .ok (id, b')) :
    b'.find? (.ofName name) = some id ∧ (b' = b ∨ ∃ which, ObjRef.ofName name = .special which ∧
      b.find? (.special which) = none ∧ AddsRoot b b' which.memory (.special which)) := by
  unfold object at h
  unfold ObjRef.ofName
  split at h
  · rename_i hname
    rw [if_pos hname]
    cases hbh : b.graph.blackHole? with
    | some id' =>
      simp only [Graph.blackHole, hbh, Except.ok.injEq, Prod.mk.injEq] at h
      obtain ⟨rfl, rfl⟩ := h
      exact ⟨hbh, Or.inl rfl⟩
    | none =>
      simp only [Graph.blackHole, hbh, Except.ok.injEq, Prod.mk.injEq] at h
      obtain ⟨rfl, rfl⟩ := h
      refine ⟨rfl, Or.inr ⟨.blackHole, rfl, hbh, rfl, rfl, rfl, rfl, rfl, rfl, rfl, rfl, rfl, rfl, rfl, rfl,
        fun r => ?_⟩⟩
      match r with
      | .declared _ | .special .blackHole | .special .constant => rfl
  rename_i hname
  rw [if_neg hname]
  split at h
  · rename_i hname
    rw [if_pos hname]
    cases hconst : b.graph.constant? with
    | some id' =>
      simp only [Graph.constant, hconst, Except.ok.injEq, Prod.mk.injEq] at h
      obtain ⟨rfl, rfl⟩ := h
      exact ⟨hconst, Or.inl rfl⟩
    | none =>
      simp only [Graph.constant, hconst, Except.ok.injEq, Prod.mk.injEq] at h
      obtain ⟨rfl, rfl⟩ := h
      refine ⟨rfl, Or.inr ⟨.constant, rfl, hconst, rfl, rfl, rfl, rfl, rfl, rfl, rfl, rfl, rfl, rfl, rfl, rfl,
        fun r => ?_⟩⟩
      match r with
      | .declared _ | .special .blackHole | .special .constant => rfl
  · rename_i hname
    rw [if_neg hname]
    split at h
    · rename_i id' hid
      injection h with h
      obtain ⟨rfl, rfl⟩ := Prod.mk.inj h
      exact ⟨hid, Or.inl rfl⟩
    · cases h

/-- Naming an object leaves the invariant in force. -/
theorem Named.special (hn : Named objects b) {which : SpecialObject}
    (hfirst : b.find? (.special which) = none)
    (ha : AddsRoot b b' which.memory (.special which)) : Named objects b' :=
  hn.addRoot ha rfl hfirst (by simp) (by simp) (fun _ hd => hd) rfl fun _ hd => Or.inl hd

end Builder

end PointsTo
