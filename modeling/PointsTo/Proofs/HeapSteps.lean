import PointsTo.Proofs.Heap

/-! What the operations of the abstract heap do.

    Cloning finds the clone of a type or adds it; either keeps the invariants and only extends what is
    known, and so do collapsing an allocation and recording a projection. Labels are expanded to
    objects of the allocations they name. -/

namespace PointsTo.Heap

variable {g₀ : Graph} {tys : TypeId → Prop} {h h' : Heap}

/-! ### Entering an object -/

section Enter

variable (h : Heap) (id : NodeId) (o : ObjNode)

@[simp] theorem graph_enter : (h.enter id o).graph = h.graph := by unfold enter; split <;> rfl

@[simp] theorem types_enter : (h.enter id o).types = h.types := by unfold enter; split <;> rfl

@[simp] theorem sites_enter : (h.enter id o).sites = h.sites := by unfold enter; split <;> rfl

@[simp] theorem clones_enter : (h.enter id o).clones = h.clones := by unfold enter; split <;> rfl

@[simp] theorem prototypes_enter : (h.enter id o).prototypes = h.prototypes := by
  unfold enter; split <;> rfl

@[simp] theorem retrievers_enter : (h.enter id o).retrievers = h.retrievers := by
  unfold enter; split <;> rfl

@[simp] theorem numClones_enter : (h.enter id o).numClones = h.numClones := by
  unfold enter; split <;> rfl

@[simp] theorem numFields_enter : (h.enter id o).numFields = h.numFields := by
  unfold enter; split <;> rfl

@[simp] theorem fieldLimit_enter : (h.enter id o).fieldLimit = h.fieldLimit := by
  unfold enter; split <;> rfl

theorem mem_fields_enter {f r k : Nat} : f ∈ (h.enter id o).fields.setAt r k ↔
    (o.kind = .field r k ∧ f = id) ∨ f ∈ h.fields.setAt r k := by
  cases hk : o.kind with
  | field r' k' =>
    simp only [enter, hk, IdGrid.mem_addTo, ObjKind.field.injEq]
    constructor
    · rintro (⟨rfl, rfl, rfl⟩ | hf)
      · exact Or.inl ⟨⟨rfl, rfl⟩, rfl⟩
      · exact Or.inr hf
    · rintro (⟨⟨rfl, rfl⟩, rfl⟩ | hf)
      · exact Or.inl ⟨rfl, rfl, rfl⟩
      · exact Or.inr hf
  | base | dummy | special w => simp [enter, hk]

theorem slot_enter {r k : Nat} {objs : IdSet} (hc : (h.enter id o).fields.cell? r k = some objs) :
    (∃ f, f ∈ objs) ∨ h.fields.cell? r k = some objs := by
  cases hk : o.kind with
  | field r' k' =>
    simp only [enter, hk, IdGrid.cell?_addTo] at hc
    split at hc
    · injection hc with hc
      exact Or.inl ⟨id, by rw [← hc, IdSet.mem_insert]; exact Or.inl rfl⟩
    · exact Or.inr hc
  | base | dummy | special w => right; simpa [enter, hk] using hc

theorem mem_memFields_enter {f m k : Nat} : f ∈ (h.enter id o).memFields.setAt m k ↔
    (m = o.mem ∧ (∃ r, o.kind = .field r k) ∧ f = id) ∨ f ∈ h.memFields.setAt m k := by
  cases hk : o.kind with
  | field r' k' =>
    simp only [enter, hk, IdGrid.mem_addTo, ObjKind.field.injEq]
    constructor
    · rintro (⟨rfl, rfl, rfl⟩ | hf)
      · exact Or.inl ⟨rfl, ⟨r', rfl, rfl⟩, rfl⟩
      · exact Or.inr hf
    · rintro (⟨rfl, ⟨r, rfl, rfl⟩, rfl⟩ | hf)
      · exact Or.inl ⟨rfl, rfl, rfl⟩
      · exact Or.inr hf
  | base | dummy | special w => simp [enter, hk]

theorem mem_memObjects_enter {x m : Nat} : x ∈ (h.enter id o).memObjects.setAt m ↔
    (m = o.mem ∧ x = id) ∨ x ∈ h.memObjects.setAt m := by
  cases hk : o.kind with
  | base | dummy | special w | field r' k' => simp [enter, hk]

end Enter

/-! ### Inheriting a site -/

section InheritSite

variable (h : Heap) (x src : NodeId)

theorem sites_inheritSite_of_ne {y : NodeId} (hy : y ≠ x) :
    (h.inheritSite x src).sites[y]? = h.sites[y]? := by
  unfold inheritSite
  cases h.site? src with
  | none => rfl
  | some st =>
    simp only [setSite, Std.TreeMap.getElem?_insert]
    rw [if_neg]
    simpa [Nat.compare_eq_eq] using Ne.symm hy

theorem sites_inheritSite_self (hx : h.sites[x]? = none) :
    (h.inheritSite x src).sites[x]? = h.sites[src]? := by
  unfold inheritSite
  cases hs : h.site? src with
  | none => exact hx.trans hs.symm
  | some st => exact (Std.TreeMap.getElem?_insert_self).trans hs.symm

/-- Inheriting a site changes nothing but sites. -/
theorem inheritSite_eq : h.inheritSite x src = { h with sites := (h.inheritSite x src).sites } := by
  unfold inheritSite
  cases h.site? src <;> rfl

end InheritSite

/-- A heap with a new object of its graph, typed, given a site and entered, adds that object. -/
theorem adds_enter (hbase : Heap) (o : ObjNode) (ty : Option TypeId) (p? : Option NodeId)
    (src : NodeId) (hsrc : ∀ p, p? = some p → src = p)
    (hgraph : hbase.graph = (h.graph.addObjNode o).2)
    (htypes : hbase.types = h.types) (hsites : hbase.sites = h.sites)
    (hproto : hbase.prototypes = p?.elim h.prototypes (h.prototypes.insert h.graph.nodes.size))
    (hclones : ∀ {c q}, c ∈ hbase.clones.setAt q ↔
      (p? = some q ∧ c = h.graph.nodes.size) ∨ c ∈ h.clones.setAt q)
    (hfields : hbase.fields = h.fields) (hmemFields : hbase.memFields = h.memFields)
    (hmemObjects : hbase.memObjects = h.memObjects) (hretr : hbase.retrievers = h.retrievers)
    (hlimit : hbase.fieldLimit = h.fieldLimit)
    (hcount : hbase.numClones + hbase.numFields = h.numClones + h.numFields + 1) :
    Adds h (((hbase.setType h.graph.nodes.size ty).inheritSite h.graph.nodes.size src).enter
      h.graph.nodes.size o) o ty p? := by
  rw [inheritSite_eq]
  refine ⟨?_, ?_, ?_, ?_, ?_, ?_, ?_, ?_, ?_, ?_, ?_, ?_, ?_⟩
  · simpa [setType] using hgraph
  · simp [setType, htypes]
  · simpa [setType] using hproto
  · intro c q
    simpa [setType] using hclones
  · intro f r k
    rw [mem_fields_enter]
    simp [setType, hfields]
  · intro r k objs hc
    simpa [setType, hfields] using slot_enter _ _ _ hc
  · intro f m k
    rw [mem_memFields_enter]
    simp [setType, hmemFields]
  · intro x m
    rw [mem_memObjects_enter]
    simp [setType, hmemObjects]
  · intro x hx
    rw [sites_enter]
    exact (sites_inheritSite_of_ne _ _ _ hx).trans (by simp [setType, hsites])
  · intro hnone
    rw [sites_enter]
    refine ⟨src, ?_, hsrc⟩
    rw [← hsites] at hnone ⊢
    exact sites_inheritSite_self (hbase.setType h.graph.nodes.size ty) _ _ hnone
  · simpa [setType] using hretr
  · simpa [setType] using hlimit
  · simpa [setType] using hcount

/-! ### Cloning -/

theorem findClone?_some {p c : NodeId} {ty : Option TypeId} (hv : h.Valid g₀ tys)
    (hf : h.findClone? p ty = some c) : h.prototypes[c]? = some p ∧ h.types[c]? = some ty := by
  have hty := List.find?_some hf
  have hmem := List.mem_of_find?_eq_some hf
  exact ⟨hv.clones.mp (IdSet.mem_toList.mp hmem), by simpa using hty⟩

theorem findClone?_none {p : NodeId} {ty : Option TypeId} (hv : h.Valid g₀ tys)
    (hf : h.findClone? p ty = none) (c : NodeId) (hc : h.prototypes[c]? = some p) :
    h.types[c]? ≠ some ty := by
  have hall := List.find?_eq_none.mp hf c (IdSet.mem_toList.mpr (hv.clones.mpr hc))
  simpa using hall

/-- What asking for a clone can lead to: it is there, or it is made from the prototype and announced
    to those who wait for clones of the prototype. -/
structure Cloned (h h' : Heap) (obj : NodeId) (o : ObjNode) (t : TypeId) (c : NodeId)
    (woken : List NodeId) : Prop where
  prototypes : h'.prototypes[c]? = some (h.prototype obj)
  types : h'.types[c]? = some (some t)
  made : (h' = h ∧ woken = []) ∨
    (Adds h h' o (some t) (some (h.prototype obj)) ∧ c = h.graph.nodes.size ∧
      woken = h.announced (h.prototype obj) o.kind)

/-- Cloning adds an object, unless there is a clone of that type or the memory is foreign. -/
theorem adds_cloneAs {obj : NodeId} {o : ObjNode} {ty : Option TypeId}
    (hp : h.graph.obj (h.prototype obj) = .ok o) (hs : o.isSpecial = false)
    (hfind : h.findClone? (h.prototype obj) ty = none) : ∃ h',
      h.cloneAs obj ty = .ok ((h.graph.nodes.size, h.announced (h.prototype obj) o.kind), h') ∧
      Adds h h' o ty (some (h.prototype obj)) := by
  let hbase : Heap := { h with
    graph := (h.graph.addObjNode o).2
    numClones := h.numClones + 1
    clones := (h.clones.addTo (h.prototype obj) h.graph.nodes.size).2
    prototypes := h.prototypes.insert h.graph.nodes.size (h.prototype obj) }
  have ha := adds_enter (h := h) hbase o ty (some (h.prototype obj)) (h.prototype obj)
    (fun _ => Option.some.inj) rfl rfl rfl rfl (by intro c q; simp [hbase, eq_comm]) rfl rfl rfl rfl rfl
    (Nat.add_right_comm _ _ _)
  refine ⟨_, ?_, ha⟩
  have hkind : ∀ w, o.kind ≠ .special w := by
    intro w hw
    simp [ObjNode.isSpecial, hw] at hs
  have hann : ∀ k, Heap.announced (((hbase.setType h.graph.nodes.size ty).inheritSite
      h.graph.nodes.size (h.prototype obj)).enter h.graph.nodes.size o) (h.prototype obj) k =
      h.announced (h.prototype obj) k := by
    intro k
    have hsite := ha.sites_old (Adds.ne_new_of_obj hp)
    have hretr := ha.retrievers
    unfold announced
    split
    · rw [hretr]
    · simp only [site?, hsite]
  have hclone : h.graph.addCloneOf (h.prototype obj) =
      .ok (h.graph.nodes.size, (h.graph.addObjNode o).2) := by
    simp only [Graph.addCloneOf, hp]; rfl
  rw [← hann]
  unfold cloneAs
  simp only [hfind, hp, hclone, ok_bind]
  cases hk : o.kind with
  | special w => exact absurd hk (hkind w)
  | base | dummy | field r k => rfl

theorem cloneAs_of_findClone? {obj c : NodeId} {ty : Option TypeId}
    (hfind : h.findClone? (h.prototype obj) ty = some c) : h.cloneAs obj ty = .ok ((c, []), h) := by
  simp [cloneAs, hfind]; rfl

/-- Cloning an object that is not foreign memory succeeds and keeps the invariants. -/
theorem cloneAs_spec (hv : h.Valid g₀ tys) {obj : NodeId} {o : ObjNode} {t : TypeId}
    (ho : h.graph.obj obj = .ok o) (hs : o.isSpecial = false) (ht : tys t) :
    ∃ c woken h', h.cloneAs obj (some t) = .ok ((c, woken), h') ∧ h'.Valid g₀ tys ∧
      Cloned h h' obj o t c woken := by
  obtain ⟨hp, hnone⟩ := hv.prototype ho
  cases hfind : h.findClone? (h.prototype obj) (some t) with
  | some c =>
    obtain ⟨hproto, hty⟩ := findClone?_some hv hfind
    exact ⟨c, [], h, cloneAs_of_findClone? hfind, hv, hproto, hty, Or.inl ⟨rfl, rfl⟩⟩
  | none =>
    obtain ⟨h', heq, ha⟩ := adds_cloneAs hp hs hfind
    refine ⟨_, _, h', heq, ha.valid ?_ hv, ha.prototypes_new hv, ha.types_new, Or.inr ⟨ha, rfl, rfl⟩⟩
    exact ⟨hp, hnone, ⟨t, ht, rfl⟩, fun c hc => findClone?_none hv hfind c hc⟩

/-! ### Small changes -/

theorem Valid.collapse (hv : h.Valid g₀ tys) (m : MemId) :
    Valid g₀ tys { h with graph := h.graph.collapse m } :=
  { hv with
    grows := hv.grows.trans (Graph.grows_collapse _ _)
    mem := by
      intro id o ho
      rw [(Graph.grows_collapse h.graph m).numMems]
      exact hv.mem ho }

theorem extends_collapse (h : Heap) (m : MemId) :
    h.Extends { h with graph := h.graph.collapse m } :=
  { Extends.refl h with graph := Graph.grows_collapse _ _ }

/-- Recording a projection for several objects changes nothing but who asked for what. -/
theorem foldl_addRetriever (st : NodeId) (fs : List NodeId) (h : Heap) :
    ∃ R : IdTable, fs.foldl (·.addRetriever · st) h = { h with retrievers := R } ∧
      ∀ {f x}, x ∈ R.setAt f ↔ (x = st ∧ ∃ g ∈ fs, h.prototype g = f) ∨ x ∈ h.retrievers.setAt f := by
  induction fs generalizing h with
  | nil => exact ⟨h.retrievers, rfl, by simp⟩
  | cons g fs ih =>
    obtain ⟨R, hR, hmem⟩ := ih (h.addRetriever g st)
    refine ⟨R, by rw [List.foldl_cons, hR]; rfl, ?_⟩
    intro f x
    have hproto : ∀ y, (h.addRetriever g st).prototype y = h.prototype y := fun _ => rfl
    rw [hmem]
    simp only [addRetriever, IdTable.mem_addTo, List.mem_cons]
    constructor
    · rintro (⟨rfl, g', hg', rfl⟩ | ⟨rfl, rfl⟩ | hx)
      · exact Or.inl ⟨rfl, g', Or.inr hg', rfl⟩
      · exact Or.inl ⟨rfl, g, Or.inl rfl, rfl⟩
      · exact Or.inr hx
    · rintro (⟨rfl, g', rfl | hg', rfl⟩ | hx)
      · exact Or.inr (Or.inl ⟨rfl, rfl⟩)
      · exact Or.inl ⟨rfl, g', hg', rfl⟩
      · exact Or.inr (Or.inr hx)

theorem Valid.withRetrievers (hv : h.Valid g₀ tys) {R : IdTable}
    (hR : ∀ {f st}, st ∈ R.setAt f → st ∈ g₀.stmts.toList) :
    Valid g₀ tys { h with retrievers := R } :=
  { hv with retrievers := hR }

/-! ### Labels -/

/-- What an object of a label brings along. -/
def Brings (h : Heap) (l x : NodeId) : Prop :=
  x = h.prototype l ∨ h.prototypes[x]? = some (h.prototype l) ∨
  ∃ o, h.graph.obj l = .ok o ∧
    ((∃ r k, o.kind = .field r k ∧ x ∈ h.memFields.setAt o.mem k) ∨
      ((h.graph.mem o.mem).fieldInsensitive = true ∧ x ∈ h.memObjects.setAt o.mem))

theorem expandBy_spec (hv : h.Valid g₀ tys) (s : IdSet) {l : NodeId} (hl : h.graph.HasObj l) :
    ∃ s', h.expandBy s l = .ok s' ∧ ∀ x, x ∈ s' ↔ h.Brings l x ∨ x ∈ s := by
  obtain ⟨o, ho⟩ := hl
  have hbrings : ∀ x, h.Brings l x ↔ x = h.prototype l ∨ x ∈ h.clones.setAt (h.prototype l) ∨
      (∃ r k, o.kind = .field r k ∧ x ∈ h.memFields.setAt o.mem k) ∨
      ((h.graph.mem o.mem).fieldInsensitive = true ∧ x ∈ h.memObjects.setAt o.mem) := by
    intro x
    rw [hv.clones, Brings, ho]
    simp
  have hclones : ∀ x, x ∈ ((s.insert (h.prototype l)).2.union (h.clones.setAt (h.prototype l))).2 ↔
      (x = h.prototype l ∨ x ∈ s) ∨ x ∈ h.clones.setAt (h.prototype l) := by simp
  unfold expandBy
  simp only [ho, ok_bind]
  cases hfi : (h.graph.mem o.mem).fieldInsensitive with
  | true =>
    refine ⟨_, rfl, fun x => ?_⟩
    rw [hbrings, IdSet.mem_union]
    cases hk : o.kind <;> simp [hclones, hfi] <;> tauto
  | false =>
    refine ⟨_, rfl, fun x => ?_⟩
    rw [hbrings]
    cases hk : o.kind <;> simp [hclones, hfi] <;> tauto

/-- Expanding a label of objects succeeds and yields the label with all that it brings along. -/
theorem expand_spec (hv : h.Valid g₀ tys) {label : IdSet} (hl : ∀ l ∈ label, h.graph.HasObj l) :
    ∃ objs, h.expand label = .ok objs ∧
      ∀ x, x ∈ objs ↔ x ∈ label ∨ ∃ l ∈ label, h.Brings l x := by
  have hfold : ∀ (ls : List NodeId) (s : IdSet), (∀ l ∈ ls, h.graph.HasObj l) →
      ∃ objs, ls.foldlM h.expandBy s = .ok objs ∧
        ∀ x, x ∈ objs ↔ x ∈ s ∨ ∃ l ∈ ls, h.Brings l x := by
    intro ls
    induction ls with
    | nil => intro s _; exact ⟨s, rfl, by simp⟩
    | cons l ls ih =>
      intro s hls
      obtain ⟨s', hs', hmem'⟩ := expandBy_spec hv s (hls l List.mem_cons_self)
      obtain ⟨objs, hobjs, hmem⟩ := ih s' (fun l' hl' => hls l' (List.mem_cons_of_mem _ hl'))
      refine ⟨objs, by rw [List.foldlM_cons, hs', ok_bind, hobjs], ?_⟩
      intro x
      rw [hmem, hmem']
      simp only [List.mem_cons, exists_eq_or_imp]
      tauto
  obtain ⟨objs, hobjs, hmem⟩ := hfold label.toList label (fun l hl' => hl l (IdSet.mem_toList.mp hl'))
  refine ⟨objs, hobjs, ?_⟩
  simpa only [IdSet.mem_toList] using hmem

end PointsTo.Heap
