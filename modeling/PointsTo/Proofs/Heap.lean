import PointsTo.Heap
import PointsTo.Proofs.Delivers
import PointsTo.Proofs.Graph
import PointsTo.Proofs.Tables

/-! The invariants of the abstract heap.

    `Valid` ties the tables of a heap to the objects of its graph: clones to their prototypes, field
    objects to their slots, all objects to their allocations. Objects come into being in two ways
    only, as the clone of a prototype and as the first object of a slot; `Adds` describes both, and
    one theorem, `Adds.valid`, carries the invariants over. -/

namespace PointsTo.Heap

/-- The invariants of a heap that an analysis reached from a graph, where objects are cloned only at
    the types in `tys`. -/
structure Valid (g₀ : Graph) (tys : TypeId → Prop) (h : Heap) : Prop where
  grows : g₀.Grows h.graph
  objects : ∀ {id}, id ∈ h.graph.objects.toList ↔ h.graph.HasObj id
  objects_nodup : h.graph.objects.toList.Nodup
  mem : ∀ {id o}, h.graph.obj id = .ok o → o.mem < h.graph.mems.size
  typed : ∀ {id : NodeId}, h.graph.HasObj id → ∃ ty, h.types[id]? = some ty
  clone : ∀ {c p : NodeId}, h.prototypes[c]? = some p →
    h.prototypes[p]? = none ∧ ∃ o, h.graph.obj c = .ok o ∧ h.graph.obj p = .ok o
  cloneType : ∀ {c p : NodeId}, h.prototypes[c]? = some p → ∃ t, tys t ∧ h.types[c]? = some (some t)
  clones : ∀ {c p : NodeId}, c ∈ h.clones.setAt p ↔ h.prototypes[c]? = some p
  cloneInj : ∀ {c c' p : NodeId}, h.prototypes[c]? = some p → h.prototypes[c']? = some p →
    h.types[c]? = h.types[c']? → c = c'
  root : ∀ {id : NodeId} {o}, h.graph.obj id = .ok o → o.isField = false → h.prototypes[id]? = none →
    id < g₀.nodes.size
  fields : ∀ {f r k}, f ∈ h.fields.setAt r k ↔ ∃ o, h.graph.obj f = .ok o ∧ o.kind = .field r k
  slot : ∀ {r k objs}, h.fields.cell? r k = some objs → ∃ f, f ∈ objs
  memFields : ∀ {f m k}, f ∈ h.memFields.setAt m k ↔
    ∃ o r, h.graph.obj f = .ok o ∧ o.mem = m ∧ o.kind = .field r k
  memObjects : ∀ {x m}, x ∈ h.memObjects.setAt m ↔ ∃ o, h.graph.obj x = .ok o ∧ o.mem = m
  fieldOf : ∀ {f o r k}, h.graph.obj f = .ok o → o.kind = .field r k →
    k < h.fieldLimit ∧ ∃ w, h.graph.obj r = .ok w ∧ w.isField = false ∧ w.mem = o.mem
  opened : ∀ {f o}, h.graph.obj f = .ok o → o.isField = true →
    (g₀.mem o.mem).fieldInsensitive = false
  fieldInj : ∀ {f f' : NodeId} {o o' r k}, h.graph.obj f = .ok o → h.graph.obj f' = .ok o' →
    o.kind = .field r k → o'.kind = .field r k →
    h.prototypes[f]? = none → h.prototypes[f']? = none → f = f'
  sites : ∀ {x st : NodeId}, h.sites[x]? = some st → h.graph.HasObj x ∧ st ∈ g₀.stmts.toList
  cloneSite : ∀ {c p : NodeId}, h.prototypes[c]? = some p → h.sites[c]? = h.sites[p]?
  retrievers : ∀ {f st}, st ∈ h.retrievers.setAt f → st ∈ g₀.stmts.toList
  count : h.graph.objects.size = g₀.objects.size + (h.numClones + h.numFields)

/-- `h'` knows everything that `h` knows of the objects of `h`. -/
structure Extends (h h' : Heap) : Prop where
  graph : h.graph.Grows h'.graph
  types : ∀ {x : NodeId}, h.graph.HasObj x → h'.types[x]? = h.types[x]?
  prototypes : ∀ {x : NodeId}, h.graph.HasObj x → h'.prototypes[x]? = h.prototypes[x]?
  sites : ∀ {x : NodeId}, h.graph.HasObj x → h'.sites[x]? = h.sites[x]?
  retrievers : ∀ {f st}, st ∈ h.retrievers.setAt f → st ∈ h'.retrievers.setAt f
  fieldLimit : h'.fieldLimit = h.fieldLimit

namespace Extends

variable {h h' h'' : Heap}

theorem refl (h : Heap) : h.Extends h where
  graph := .refl _
  types _ := rfl
  prototypes _ := rfl
  sites _ := rfl
  retrievers hst := hst
  fieldLimit := rfl

theorem trans (he : h.Extends h') (he' : h'.Extends h'') : h.Extends h'' where
  graph := he.graph.trans he'.graph
  types hx := (he'.types (he.graph.hasObj hx)).trans (he.types hx)
  prototypes hx := (he'.prototypes (he.graph.hasObj hx)).trans (he.prototypes hx)
  sites hx := (he'.sites (he.graph.hasObj hx)).trans (he.sites hx)
  retrievers hst := he'.retrievers (he.retrievers hst)
  fieldLimit := he'.fieldLimit.trans he.fieldLimit

theorem prototype (he : h.Extends h') {x : NodeId} (hx : h.graph.HasObj x) :
    h'.prototype x = h.prototype x := by
  simp only [Heap.prototype, Std.TreeMap.getD_eq_getD_getElem?, he.prototypes hx]

/-- Whoever is told of a clone is told of it in every later state. -/
theorem announced (he : h.Extends h') {p : NodeId} {o : ObjNode} (hp : h.graph.obj p = .ok o)
    {st : NodeId} (hst : st ∈ h.announced p o.kind) : st ∈ h'.announced p o.kind := by
  cases hk : o.kind with
  | field r k =>
    simp only [Heap.announced, hk, IdSet.mem_sorted] at hst ⊢
    exact he.retrievers hst
  | base | dummy | special w =>
    simp only [Heap.announced, hk, site?, he.sites ⟨o, hp⟩] at hst ⊢
    exact hst

end Extends

/-! ### Prototypes -/

section Prototype

variable {g₀ : Graph} {tys : TypeId → Prop} {h : Heap}

theorem prototype_of_some {c p : NodeId} (hc : h.prototypes[c]? = some p) : h.prototype c = p := by
  simp [prototype, Std.TreeMap.getD_eq_getD_getElem?, hc]

theorem prototype_of_none {x : NodeId} (hx : h.prototypes[x]? = none) : h.prototype x = x := by
  simp [prototype, Std.TreeMap.getD_eq_getD_getElem?, hx]

/-- An object and its prototype are nodes of the same content, and a prototype is no clone. -/
theorem Valid.prototype (hv : h.Valid g₀ tys) {x : NodeId} {o : ObjNode}
    (hx : h.graph.obj x = .ok o) :
    h.graph.obj (h.prototype x) = .ok o ∧ h.prototypes[h.prototype x]? = none := by
  cases hp : h.prototypes[x]? with
  | none => rw [prototype_of_none hp]; exact ⟨hx, hp⟩
  | some p =>
    obtain ⟨hnone, o', hc, ho⟩ := hv.clone hp
    rw [prototype_of_some hp]
    rw [hx] at hc
    injection hc with hc
    exact ⟨hc ▸ ho, hnone⟩

/-- The objects of a slot have one prototype in common. -/
theorem Valid.prototype_eq_of_slot (hv : h.Valid g₀ tys) {f f' r : NodeId} {k : Nat} {o o' : ObjNode}
    (hf : h.graph.obj f = .ok o) (hf' : h.graph.obj f' = .ok o')
    (hk : o.kind = .field r k) (hk' : o'.kind = .field r k) : h.prototype f = h.prototype f' := by
  obtain ⟨hp, hnone⟩ := hv.prototype hf
  obtain ⟨hp', hnone'⟩ := hv.prototype hf'
  exact hv.fieldInj hp hp' hk hk' hnone hnone'

theorem Valid.not_hasObj_size (_hv : h.Valid g₀ tys) : ¬ h.graph.HasObj h.graph.nodes.size :=
  fun hx => Nat.lt_irrefl _ hx.lt_size

theorem Valid.prototypes_size (hv : h.Valid g₀ tys) : h.prototypes[h.graph.nodes.size]? = none := by
  cases hp : h.prototypes[h.graph.nodes.size]? with
  | none => rfl
  | some p =>
    obtain ⟨-, o, ho, -⟩ := hv.clone hp
    exact absurd ⟨o, ho⟩ hv.not_hasObj_size

theorem Valid.sites_size (hv : h.Valid g₀ tys) : h.sites[h.graph.nodes.size]? = none := by
  cases hs : h.sites[h.graph.nodes.size]? with
  | none => rfl
  | some st => exact absurd (hv.sites hs).1 hv.not_hasObj_size

/-- Clones and prototypes are nodes of the graph. -/
theorem Valid.clone_ne_size (hv : h.Valid g₀ tys) {c p : NodeId} (hc : h.prototypes[c]? = some p) :
    c ≠ h.graph.nodes.size ∧ p ≠ h.graph.nodes.size := by
  obtain ⟨-, o, hco, hpo⟩ := hv.clone hc
  exact ⟨Nat.ne_of_lt (Graph.obj_lt_size hco), Nat.ne_of_lt (Graph.obj_lt_size hpo)⟩

end Prototype

/-! ### New objects -/

/-- `h'` is `h` with one more object, which is a clone of `p?` if that is given. -/
structure Adds (h h' : Heap) (o : ObjNode) (ty : Option TypeId) (p? : Option NodeId) : Prop where
  graph : h'.graph = (h.graph.addObjNode o).2
  types : h'.types = h.types.insert h.graph.nodes.size ty
  prototypes : h'.prototypes = p?.elim h.prototypes (h.prototypes.insert h.graph.nodes.size)
  clones : ∀ {c q}, c ∈ h'.clones.setAt q ↔
    (p? = some q ∧ c = h.graph.nodes.size) ∨ c ∈ h.clones.setAt q
  fields : ∀ {f r k}, f ∈ h'.fields.setAt r k ↔
    (o.kind = .field r k ∧ f = h.graph.nodes.size) ∨ f ∈ h.fields.setAt r k
  slot : ∀ {r k objs}, h'.fields.cell? r k = some objs →
    (∃ f, f ∈ objs) ∨ h.fields.cell? r k = some objs
  memFields : ∀ {f m k}, f ∈ h'.memFields.setAt m k ↔
    (m = o.mem ∧ (∃ r, o.kind = .field r k) ∧ f = h.graph.nodes.size) ∨ f ∈ h.memFields.setAt m k
  memObjects : ∀ {x m}, x ∈ h'.memObjects.setAt m ↔
    (m = o.mem ∧ x = h.graph.nodes.size) ∨ x ∈ h.memObjects.setAt m
  sites_old : ∀ {x : NodeId}, x ≠ h.graph.nodes.size → h'.sites[x]? = h.sites[x]?
  /-- The new object has the site of another one; a clone has that of its prototype. -/
  sites_new : h.sites[h.graph.nodes.size]? = none → ∃ y : NodeId,
    h'.sites[h.graph.nodes.size]? = h.sites[y]? ∧ ∀ p, p? = some p → y = p
  retrievers : h'.retrievers = h.retrievers
  fieldLimit : h'.fieldLimit = h.fieldLimit
  count : h'.numClones + h'.numFields = h.numClones + h.numFields + 1

/-- What makes an object welcome in a heap: as a clone, it is the first of its prototype at its type;
    otherwise it is the first object of its slot. -/
def Newcomer (tys : TypeId → Prop) (h : Heap) (o : ObjNode) (ty : Option TypeId) :
    Option NodeId → Prop
  | some p => h.graph.obj p = .ok o ∧ h.prototypes[p]? = none ∧ (∃ t, tys t ∧ ty = some t) ∧
      ∀ c : NodeId, h.prototypes[c]? = some p → h.types[c]? ≠ some ty
  | none => ∃ r k, o.kind = .field r k ∧ k < h.fieldLimit ∧
      (∃ w, h.graph.obj r = .ok w ∧ w.isField = false ∧ w.mem = o.mem) ∧
      o.mem < h.graph.mems.size ∧ (h.graph.mem o.mem).fieldInsensitive = false ∧
      ∀ f o', h.graph.obj f = .ok o' → o'.kind ≠ .field r k

section NewObjects

variable {g₀ : Graph} {tys : TypeId → Prop} {h h' : Heap} {o : ObjNode} {ty : Option TypeId}
  {p? : Option NodeId}

namespace Newcomer

theorem mem_lt (hn : Newcomer tys h o ty p?) (hv : h.Valid g₀ tys) : o.mem < h.graph.mems.size := by
  cases p? with
  | some p => exact hv.mem hn.1
  | none =>
    obtain ⟨r, k, -, -, -, hm, -⟩ := hn
    exact hm

/-- A newcomer that is a field is one of a whole object, below the limit. -/
theorem fieldOf (hn : Newcomer tys h o ty p?) (hv : h.Valid g₀ tys) {r : NodeId} {k : Nat}
    (hk : o.kind = .field r k) :
    k < h.fieldLimit ∧ ∃ w, h.graph.obj r = .ok w ∧ w.isField = false ∧ w.mem = o.mem := by
  cases p? with
  | some p => exact hv.fieldOf hn.1 hk
  | none =>
    obtain ⟨r', k', hk', hlt, hw, -⟩ := hn
    obtain ⟨rfl, rfl⟩ : r = r' ∧ k = k' := by simpa [hk] using hk'
    exact ⟨hlt, hw⟩

/-- A newcomer that is a field belongs to an allocation with fields. -/
theorem opened (hn : Newcomer tys h o ty p?) (hv : h.Valid g₀ tys) (hf : o.isField = true) :
    (g₀.mem o.mem).fieldInsensitive = false := by
  cases p? with
  | some p => exact hv.opened hn.1 hf
  | none =>
    obtain ⟨-, -, -, -, -, -, hfi, -⟩ := hn
    by_contra hfi₀
    rw [hv.grows.collapsed (by simpa using hfi₀)] at hfi
    exact absurd hfi (by decide)

theorem isField (hn : Newcomer tys h o ty none) : o.isField = true := by
  obtain ⟨r, k, hk, -⟩ := hn
  simp [ObjNode.isField, hk]

/-- A newcomer that is no clone is the first object of its slot. -/
theorem first (hn : Newcomer tys h o ty none) {r x : NodeId} {k : Nat} {ox : ObjNode}
    (hk : o.kind = .field r k) (hx : h.graph.obj x = .ok ox) : ox.kind ≠ .field r k := by
  obtain ⟨r', k', hk', -, -, -, -, hfirst⟩ := hn
  obtain ⟨rfl, rfl⟩ : r = r' ∧ k = k' := by simpa [hk] using hk'
  exact hfirst x ox hx

end Newcomer

namespace Adds

theorem obj_iff (ha : Adds h h' o ty p?) {id : NodeId} {o' : ObjNode} :
    h'.graph.obj id = .ok o' ↔ (id = h.graph.nodes.size ∧ o' = o) ∨ h.graph.obj id = .ok o' := by
  rw [ha.graph]; exact Graph.obj_addObjNode

/-- The objects with a property are the old ones, and perhaps the new one. -/
theorem exists_obj (ha : Adds h h' o ty p?) {x : NodeId} {P : ObjNode → Prop} :
    (∃ o', h'.graph.obj x = .ok o' ∧ P o') ↔
      (x = h.graph.nodes.size ∧ P o) ∨ ∃ o', h.graph.obj x = .ok o' ∧ P o' := by
  simp only [ha.obj_iff, or_and_right, exists_or, and_assoc, exists_and_left, exists_eq_left]

theorem types_new (ha : Adds h h' o ty p?) : h'.types[h.graph.nodes.size]? = some ty := by
  rw [ha.types, Std.TreeMap.getElem?_insert_self]

theorem types_old (ha : Adds h h' o ty p?) {x : NodeId} (hx : x ≠ h.graph.nodes.size) :
    h'.types[x]? = h.types[x]? := by
  rw [ha.types, Std.TreeMap.getElem?_insert, if_neg]
  simpa [Nat.compare_eq_eq] using Ne.symm hx

theorem prototypes_old (ha : Adds h h' o ty p?) {x : NodeId} (hx : x ≠ h.graph.nodes.size) :
    h'.prototypes[x]? = h.prototypes[x]? := by
  rw [ha.prototypes]
  cases p? with
  | none => rfl
  | some p =>
    simp only [Option.elim_some, Std.TreeMap.getElem?_insert]
    rw [if_neg]
    simpa [Nat.compare_eq_eq] using Ne.symm hx

theorem prototypes_new (ha : Adds h h' o ty p?) (hv : h.Valid g₀ tys) :
    h'.prototypes[h.graph.nodes.size]? = p? := by
  rw [ha.prototypes]
  cases p? with
  | none => exact hv.prototypes_size
  | some p => simp only [Option.elim_some, Std.TreeMap.getElem?_insert_self]

theorem hasObj_new (ha : Adds h h' o ty p?) : h'.graph.HasObj h.graph.nodes.size :=
  ⟨o, ha.obj_iff.mpr (Or.inl ⟨rfl, rfl⟩)⟩

theorem extend (ha : Adds h h' o ty p?) : h.Extends h' where
  graph := by rw [ha.graph]; exact Graph.grows_addObjNode _ _
  types hx := ha.types_old (Nat.ne_of_lt hx.lt_size)
  prototypes hx := ha.prototypes_old (Nat.ne_of_lt hx.lt_size)
  sites hx := ha.sites_old (Nat.ne_of_lt hx.lt_size)
  retrievers hst := by rw [ha.retrievers]; exact hst
  fieldLimit := ha.fieldLimit

/-- A clone in the larger heap is an old clone or the new object. -/
theorem clone_cases (ha : Adds h h' o ty p?) (hv : h.Valid g₀ tys) {c p : NodeId}
    (hc : h'.prototypes[c]? = some p) :
    h.prototypes[c]? = some p ∨ (c = h.graph.nodes.size ∧ p? = some p) := by
  by_cases hnew : c = h.graph.nodes.size
  · right
    rw [hnew, ha.prototypes_new hv] at hc
    exact ⟨hnew, hc⟩
  · left
    rwa [ha.prototypes_old hnew] at hc

theorem ne_new_of_obj {x : NodeId} {o' : ObjNode} (hx : h.graph.obj x = .ok o') :
    x ≠ h.graph.nodes.size :=
  Nat.ne_of_lt (Graph.obj_lt_size hx)

theorem objects_eq (ha : Adds h h' o ty p?) :
    h'.graph.objects.toList = h.graph.objects.toList ++ [h.graph.nodes.size] := by
  rw [ha.graph]; simp [Graph.addObjNode, Graph.addNode]

/-- Clones of one prototype at one type are the same, the new object among them. -/
theorem cloneInj (ha : Adds h h' o ty p?) (hn : Newcomer tys h o ty p?) (hv : h.Valid g₀ tys)
    {c c' p : NodeId} (hc : h'.prototypes[c]? = some p) (hc' : h'.prototypes[c']? = some p)
    (hty : h'.types[c]? = h'.types[c']?) : c = c' := by
  rcases ha.clone_cases hv hc with hold | ⟨rfl, rfl⟩ <;>
    rcases ha.clone_cases hv hc' with hold' | ⟨rfl, hp⟩
  · rw [ha.types_old (hv.clone_ne_size hold).1, ha.types_old (hv.clone_ne_size hold').1] at hty
    exact hv.cloneInj hold hold' hty
  · subst hp
    rw [ha.types_old (hv.clone_ne_size hold).1, ha.types_new] at hty
    exact absurd hty (hn.2.2.2 c hold)
  · rw [ha.types_old (hv.clone_ne_size hold').1, ha.types_new] at hty
    exact absurd hty.symm (hn.2.2.2 c' hold')
  · rfl

/-- A slot has one object that is no clone, which may be the new one. -/
theorem fieldInj (ha : Adds h h' o ty p?) (hn : Newcomer tys h o ty p?) (hv : h.Valid g₀ tys)
    {f f' r : NodeId} {k : Nat} {o₁ o₂ : ObjNode} (hf : h'.graph.obj f = .ok o₁)
    (hf' : h'.graph.obj f' = .ok o₂) (hk : o₁.kind = .field r k) (hk' : o₂.kind = .field r k)
    (hnone : h'.prototypes[f]? = none) (hnone' : h'.prototypes[f']? = none) : f = f' := by
  rcases ha.obj_iff.mp hf with ⟨rfl, rfl⟩ | hold <;>
    rcases ha.obj_iff.mp hf' with ⟨rfl, rfl⟩ | hold'
  · rfl
  · obtain rfl := (ha.prototypes_new hv).symm.trans hnone
    exact absurd hk' (hn.first hk hold')
  · obtain rfl := (ha.prototypes_new hv).symm.trans hnone'
    exact absurd hk (hn.first hk' hold)
  · rw [ha.prototypes_old (ne_new_of_obj hold)] at hnone
    rw [ha.prototypes_old (ne_new_of_obj hold')] at hnone'
    exact hv.fieldInj hold hold' hk hk' hnone hnone'

/-- A welcome object leaves the invariants in force. -/
theorem valid (ha : Adds h h' o ty p?) (hn : Newcomer tys h o ty p?) (hv : h.Valid g₀ tys) :
    h'.Valid g₀ tys where
  grows := hv.grows.trans ha.extend.graph
  objects := by
    intro id
    rw [ha.objects_eq, List.mem_append, hv.objects, List.mem_singleton, or_comm]
    simpa [Graph.HasObj] using (ha.exists_obj (P := fun _ => True)).symm
  objects_nodup := by
    rw [ha.objects_eq]
    refine List.nodup_append.mpr ⟨hv.objects_nodup, by simp, ?_⟩
    intro a hold b hb heq
    rw [List.mem_singleton] at hb
    exact hv.not_hasObj_size (hv.objects.mp (hb ▸ heq ▸ hold))
  mem := by
    intro id o' ho'
    rw [ha.extend.graph.numMems]
    rcases ha.obj_iff.mp ho' with ⟨-, rfl⟩ | ho'
    · exact hn.mem_lt hv
    · exact hv.mem ho'
  typed := by
    rintro id ⟨o', ho'⟩
    rcases ha.obj_iff.mp ho' with ⟨rfl, -⟩ | ho'
    · exact ⟨ty, ha.types_new⟩
    · rw [ha.types_old (ne_new_of_obj ho')]
      exact hv.typed ⟨o', ho'⟩
  clone := by
    intro c p hc
    rcases ha.clone_cases hv hc with hc | ⟨rfl, rfl⟩
    · obtain ⟨hnone, o', hco, hpo⟩ := hv.clone hc
      rw [ha.prototypes_old (ne_new_of_obj hpo)]
      exact ⟨hnone, o', ha.obj_iff.mpr (Or.inr hco), ha.obj_iff.mpr (Or.inr hpo)⟩
    · obtain ⟨hp, hnone, -, -⟩ := hn
      rw [ha.prototypes_old (ne_new_of_obj hp)]
      exact ⟨hnone, o, ha.obj_iff.mpr (Or.inl ⟨rfl, rfl⟩), ha.obj_iff.mpr (Or.inr hp)⟩
  cloneType := by
    intro c p hc
    rcases ha.clone_cases hv hc with hc | ⟨rfl, rfl⟩
    · rw [ha.types_old (hv.clone_ne_size hc).1]
      exact hv.cloneType hc
    · obtain ⟨-, -, ⟨t, ht, rfl⟩, -⟩ := hn
      exact ⟨t, ht, ha.types_new⟩
  clones := by
    intro c p
    rw [ha.clones, hv.clones]
    constructor
    · rintro (⟨rfl, rfl⟩ | hc)
      · exact ha.prototypes_new hv
      · exact (ha.prototypes_old (hv.clone_ne_size hc).1).trans hc
    · intro hc
      rcases ha.clone_cases hv hc with hc | ⟨rfl, rfl⟩
      · exact Or.inr hc
      · exact Or.inl ⟨rfl, rfl⟩
  cloneInj := ha.cloneInj hn hv
  root := by
    intro id o' ho' hfield hnone
    rcases ha.obj_iff.mp ho' with ⟨rfl, rfl⟩ | ho'
    · obtain rfl := (ha.prototypes_new hv).symm.trans hnone
      rw [hn.isField] at hfield
      cases hfield
    · rw [ha.prototypes_old (ne_new_of_obj ho')] at hnone
      exact hv.root ho' hfield hnone
  fields := by
    intro f r k
    rw [ha.fields, hv.fields, ha.exists_obj]
    exact or_congr_left and_comm
  slot := by
    intro r k objs hcell
    rcases ha.slot hcell with hnew | hold
    · exact hnew
    · exact hv.slot hold
  memFields := by
    intro f m k
    rw [ha.memFields, hv.memFields]
    simp only [exists_and_left, ha.exists_obj]
    refine or_congr_left ⟨?_, ?_⟩
    · rintro ⟨hm, hk, hf⟩
      exact ⟨hf, hm.symm, hk⟩
    · rintro ⟨hf, hm, hk⟩
      exact ⟨hm.symm, hk, hf⟩
  memObjects := by
    intro x m
    rw [ha.memObjects, hv.memObjects, ha.exists_obj, eq_comm (a := m)]
    exact or_congr_left and_comm
  fieldOf := by
    intro f o' r k hf hk
    -- The whole object of a field is an old object, be the field itself old or new.
    have hold : k < h.fieldLimit ∧ ∃ w, h.graph.obj r = .ok w ∧ w.isField = false ∧
        w.mem = o'.mem := by
      rcases ha.obj_iff.mp hf with ⟨rfl, rfl⟩ | hf
      · exact hn.fieldOf hv hk
      · exact hv.fieldOf hf hk
    obtain ⟨hlt, w, hw, hfield, hm⟩ := hold
    exact ⟨ha.fieldLimit ▸ hlt, w, ha.obj_iff.mpr (Or.inr hw), hfield, hm⟩
  opened := by
    intro f o' hf hfield
    rcases ha.obj_iff.mp hf with ⟨rfl, rfl⟩ | hf
    · exact hn.opened hv hfield
    · exact hv.opened hf hfield
  fieldInj := ha.fieldInj hn hv
  sites := by
    intro x st hst
    by_cases hx : x = h.graph.nodes.size
    · subst hx
      obtain ⟨y, hy, -⟩ := ha.sites_new hv.sites_size
      exact ⟨ha.hasObj_new, (hv.sites (hy ▸ hst)).2⟩
    · rw [ha.sites_old hx] at hst
      obtain ⟨hobj, hmem⟩ := hv.sites hst
      exact ⟨ha.extend.graph.hasObj hobj, hmem⟩
  cloneSite := by
    intro c p hc
    rcases ha.clone_cases hv hc with hc | ⟨rfl, rfl⟩
    · obtain ⟨hcne, hpne⟩ := hv.clone_ne_size hc
      rw [ha.sites_old hcne, ha.sites_old hpne]
      exact hv.cloneSite hc
    · obtain ⟨y, hy, hyp⟩ := ha.sites_new hv.sites_size
      rw [hy, hyp p rfl, ha.sites_old (ne_new_of_obj hn.1)]
  retrievers := by
    intro f st hst
    rw [ha.retrievers] at hst
    exact hv.retrievers hst
  count := by
    have hsize := congrArg List.length ha.objects_eq
    have hold := hv.count
    have hnew := ha.count
    simp only [List.length_append, List.length_singleton, Array.length_toList] at hsize
    omega

end Adds

end NewObjects

end PointsTo.Heap
