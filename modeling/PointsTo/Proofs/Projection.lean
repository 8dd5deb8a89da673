import PointsTo.Proofs.HeapSteps

/-! Projecting objects.

    A projection leads to the object itself or to all objects of a slot, the first of which it may
    have to make. Asking once more gives the same answer, and goes on doing so as long as the
    allocation keeps its fields apart and no clone joins the slot. -/

namespace PointsTo.Heap

variable {g₀ : Graph} {tys : TypeId → Prop} {h h' : Heap}

/-! ### What a projection can lead to -/

/-- Is the object an array, by its allocation or by its type? -/
def isArrayAt (h : Heap) (types : Hierarchy) (base : NodeId) (o : ObjNode) : Bool :=
  (h.graph.mem o.mem).isArray || types.isArray (h.types[base]?).join

/-- Does a projection of the object lead to a slot, and not to the object itself? -/
def opens (h : Heap) (types : Hierarchy) (base : NodeId) (o : ObjNode) (offset : Nat) : Bool :=
  !o.isSpecial && !((h.graph.mem o.mem).fieldInsensitive ||
    (offset == 0 && !h.isArrayAt types base o))

variable {types : Hierarchy} {base : NodeId} {o : ObjNode} {offset : Nat}

theorem not_fieldInsensitive_of_opens (hopen : h.opens types base o offset = true) :
    (h.graph.mem o.mem).fieldInsensitive = false := by
  simp only [opens, Bool.and_eq_true, Bool.not_eq_true', Bool.or_eq_false_iff] at hopen
  exact hopen.2.1

theorem project_of_closed (hv : h.Valid g₀ tys) (ho : h.graph.obj base = .ok o)
    (hc : h.opens types base o offset = false) :
    h.project types base offset = .ok (IdSet.ofList [base], h) := by
  obtain ⟨ty, hty⟩ := hv.typed ⟨o, ho⟩
  have htypeOf : h.typeOf base = .ok ty := by simp [typeOf, hty]
  simp only [opens, isArrayAt, hty, Option.join_some] at hc
  unfold project
  simp only [ho, ok_bind, htypeOf]
  cases hs : o.isSpecial with
  | true => rfl
  | false =>
    simp only [hs, Bool.not_false, Bool.true_and, Bool.not_eq_false'] at hc
    simp only [hc, if_true]
    rfl

theorem project_of_opens (hv : h.Valid g₀ tys) (ho : h.graph.obj base = .ok o)
    (hopen : h.opens types base o offset = true) :
    ∃ ty, h.types[base]? = some ty ∧ h.project types base offset = (do
      let (root, slot) ← slotOf base o.kind offset
      if h.fieldLimit ≤ slot then
        return (IdSet.ofList [base], { h with graph := h.graph.collapse o.mem })
      match h.fields.cell? root slot with
      | some objs => return (objs, h)
      | none =>
        let ty ← h.slotType types base ty (h.isArrayAt types base o) offset root slot
        let h ← h.makeField base root slot ty
        return (h.fields.setAt root slot, h)) := by
  obtain ⟨ty, hty⟩ := hv.typed ⟨o, ho⟩
  have htypeOf : h.typeOf base = .ok ty := by simp [typeOf, hty]
  have harray : h.isArrayAt types base o = ((h.graph.mem o.mem).isArray || types.isArray ty) := by
    rw [isArrayAt, hty, Option.join_some]
  rw [opens, harray, Bool.and_eq_true, Bool.not_eq_true', Bool.not_eq_true'] at hopen
  obtain ⟨hs, hopen⟩ := hopen
  refine ⟨ty, hty, ?_⟩
  rewrite [project, ho, ok_bind, if_neg (ne_true_of_eq_false hs), htypeOf, ok_bind,
    if_neg (ne_true_of_eq_false hopen), harray]
  rfl

theorem slotOf_of_whole (hf : o.isField = false) : slotOf base o.kind offset = .ok (base, offset) := by
  unfold slotOf
  split
  case h_1 hk => simp [ObjNode.isField, hk] at hf
  case h_2 => rfl

theorem slotOf_field_eq_ok {r root : NodeId} {k slot : Nat} :
    slotOf base (.field r k) offset = .ok (root, slot) ↔
      root = r ∧ slot = k + offset ∧ k + offset < wordLimit := by
  simp only [slotOf, checkedAdd]
  by_cases hlt : k + offset < wordLimit
  · simp only [hlt, if_true, ok_bind, pure_eq_ok, Except.ok.injEq, Prod.mk.injEq, and_true]
    exact and_congr eq_comm eq_comm
  · simp [hlt, Bind.bind, Except.bind]

/-- A projection leads into a whole object of the same allocation, if its offset is a machine word. -/
theorem slotOf_spec (hv : h.Valid g₀ tys) (ho : h.graph.obj base = .ok o) (offset : Nat) :
    Delivers (∃ r k, o.kind = .field r k ∧ wordLimit ≤ k + offset) (slotOf base o.kind offset) fun r =>
      ∃ w, h.graph.obj r.1 = .ok w ∧ w.isField = false ∧ w.mem = o.mem := by
  cases hk : o.kind with
  | field r k =>
    obtain ⟨-, w, hw, hfield, hm⟩ := hv.fieldOf ho hk
    simp only [slotOf, checkedAdd]
    split
    case isTrue => exact ⟨w, hw, hfield, hm⟩
    case isFalse hge => exact .overflow ⟨r, k, rfl, Nat.le_of_not_lt hge⟩
  | base => exact ⟨o, ho, by simp [ObjNode.isField, hk], rfl⟩
  | dummy => exact ⟨o, ho, by simp [ObjNode.isField, hk], rfl⟩
  | special s => exact ⟨o, ho, by simp [ObjNode.isField, hk], rfl⟩

theorem slotType_ok (hv : h.Valid g₀ tys) (types : Hierarchy) (base : NodeId) (ty : Option TypeId)
    (isArray : Bool) (offset : Nat) {root : NodeId} (slot : Nat) (hroot : h.graph.HasObj root) :
    ∃ t, h.slotType types base ty isArray offset root slot = .ok t := by
  obtain ⟨rootTy, hty⟩ := hv.typed hroot
  have htypeOf : h.typeOf root = .ok rootTy := by simp [typeOf, hty]
  unfold slotType
  split
  · exact ⟨_, rfl⟩
  · split
    · exact ⟨_, rfl⟩
    · split
      · simp only [htypeOf, ok_bind]
        split <;> exact ⟨_, rfl⟩
      · exact ⟨_, rfl⟩

/-- Making the first object of a slot. -/
theorem makeField_spec (hv : h.Valid g₀ tys) (base : NodeId) {root : NodeId} {slot : Nat}
    (ty : Option TypeId) {w : ObjNode} (hw : h.graph.obj root = .ok w) (hfield : w.isField = false)
    (hopened : (h.graph.mem w.mem).fieldInsensitive = false) (hlt : slot < h.fieldLimit)
    (hcell : h.fields.cell? root slot = none) :
    ∃ n h', h.makeField base root slot ty = .ok h' ∧ h'.Valid g₀ tys ∧ Adds h h' n ty none ∧
      n.kind = .field root slot ∧ n.mem = w.mem := by
  let n : ObjNode :=
    { kind := .field root slot, mem := w.mem, name := w.name ++ "." ++ toString slot }
  let hbase : Heap := { h with graph := (h.graph.addObjNode n).2, numFields := h.numFields + 1 }
  have ha := adds_enter (h := h) hbase n ty none base nofun rfl rfl rfl rfl (by simp [hbase]) rfl rfl
    rfl rfl rfl rfl
  refine ⟨n, _, ?_, ha.valid ?_ hv, ha, rfl, rfl⟩
  · have hadd : h.graph.addField root slot = .ok (h.graph.nodes.size, (h.graph.addObjNode n).2) := by
      simp only [Graph.addField, hw, ok_bind]; rfl
    unfold makeField
    simp only [hadd, ok_bind, Graph.obj_addObjNode_self]
    rfl
  · refine ⟨root, slot, rfl, hlt, ⟨w, hw, hfield, rfl⟩, (hv.mem hw : w.mem < _), hopened, ?_⟩
    intro f o' ho' hk
    have hmem := hv.fields.mpr ⟨o', ho', hk⟩
    rw [IdGrid.setAt_of_cell?_none hcell] at hmem
    exact IdSet.not_mem_empty f hmem

/-- A projection at or beyond the field limit. -/
theorem project_of_limit (hv : h.Valid g₀ tys) (ho : h.graph.obj base = .ok o)
    (hopen : h.opens types base o offset = true) {root : NodeId} {slot : Nat}
    (hslot : slotOf base o.kind offset = .ok (root, slot)) (hlimit : h.fieldLimit ≤ slot) :
    h.project types base offset =
      .ok (.ofList [base], { h with graph := h.graph.collapse o.mem }) := by
  obtain ⟨ty, -, hproj⟩ := project_of_opens hv ho hopen
  rw [hproj]
  simp only [hslot, ok_bind, if_pos hlimit]
  rfl

/-- A projection that leads to a slot with objects. -/
theorem project_of_cell (hv : h.Valid g₀ tys) (ho : h.graph.obj base = .ok o)
    (hopen : h.opens types base o offset = true) {root : NodeId} {slot : Nat} {objs : IdSet}
    (hslot : slotOf base o.kind offset = .ok (root, slot)) (hlt : slot < h.fieldLimit)
    (hcell : h.fields.cell? root slot = some objs) :
    h.project types base offset = .ok (objs, h) := by
  obtain ⟨ty, -, hproj⟩ := project_of_opens hv ho hopen
  rw [hproj]
  simp only [hslot, ok_bind, if_neg (Nat.not_le_of_lt hlt), hcell]
  rfl

/-- A projection that leads to a slot without objects makes the first one, of the slot's type. -/
theorem project_of_empty (hv : h.Valid g₀ tys) (ho : h.graph.obj base = .ok o)
    (hopen : h.opens types base o offset = true) {root : NodeId} {slot : Nat}
    (hslot : slotOf base o.kind offset = .ok (root, slot)) (hlt : slot < h.fieldLimit)
    (hcell : h.fields.cell? root slot = none) :
    ∃ via ty n h', h.types[base]? = some via ∧
      h.slotType types base via (h.isArrayAt types base o) offset root slot = .ok ty ∧
      h.project types base offset = .ok (h'.fields.setAt root slot, h') ∧ h'.Valid g₀ tys ∧
      Adds h h' n ty none ∧ n.kind = .field root slot ∧ n.mem = o.mem := by
  obtain ⟨via, hvia, hproj⟩ := project_of_opens hv ho hopen
  obtain ⟨w, hw, hfield, hm⟩ := (slotOf_spec hv ho offset).result hslot
  have hopened : (h.graph.mem w.mem).fieldInsensitive = false := by
    rw [hm]; exact not_fieldInsensitive_of_opens hopen
  obtain ⟨ty, hty⟩ := slotType_ok hv types base via (h.isArrayAt types base o) offset slot ⟨w, hw⟩
  obtain ⟨n, h', hmake, hv', ha, hkind, hnm⟩ := makeField_spec hv base ty hw hfield hopened hlt hcell
  refine ⟨via, ty, n, h', hvia, hty, ?_, hv', ha, hkind, hnm.trans hm⟩
  rw [hproj]
  simp only [hslot, ok_bind, if_neg (Nat.not_le_of_lt hlt), hcell, hty, hmake]
  rfl

/-- What a projection can lead to: the object itself; the object itself after its allocation was
    collapsed at the field limit; or all objects of a slot, which were there or of which the first
    one was made. -/
inductive Projected (h : Heap) (types : Hierarchy) (base : NodeId) (o : ObjNode) (offset : Nat) :
    IdSet → Heap → Prop
  | itself (hclosed : h.opens types base o offset = false) :
    Projected h types base o offset (.ofList [base]) h
  | collapsed {root : NodeId} {slot : Nat} (hopen : h.opens types base o offset = true)
    (hslot : slotOf base o.kind offset = .ok (root, slot)) (hlimit : h.fieldLimit ≤ slot) :
    Projected h types base o offset (.ofList [base]) { h with graph := h.graph.collapse o.mem }
  | found {root : NodeId} {slot : Nat} {objs : IdSet} (hopen : h.opens types base o offset = true)
    (hslot : slotOf base o.kind offset = .ok (root, slot)) (hlt : slot < h.fieldLimit)
    (hcell : h.fields.cell? root slot = some objs) :
    Projected h types base o offset objs h
  | made {root : NodeId} {slot : Nat} {h' : Heap} {n : ObjNode} {ty : Option TypeId}
    (hopen : h.opens types base o offset = true)
    (hslot : slotOf base o.kind offset = .ok (root, slot)) (hlt : slot < h.fieldLimit)
    (hcell : h.fields.cell? root slot = none) (hadds : Adds h h' n ty none)
    (hkind : n.kind = .field root slot) (hmem : n.mem = o.mem) :
    Projected h types base o offset (h'.fields.setAt root slot) h'

/-- Projecting an object keeps the invariants; it fails only if the offset in the whole object is no
    machine word. -/
theorem project_spec (hv : h.Valid g₀ tys) (ho : h.graph.obj base = .ok o) :
    Delivers (h.opens types base o offset = true ∧ ∃ r k, o.kind = .field r k ∧ wordLimit ≤ k + offset)
      (h.project types base offset) fun r =>
        r.2.Valid g₀ tys ∧ Projected h types base o offset r.1 r.2 := by
  cases hopen : h.opens types base o offset with
  | false => exact .of_eq (project_of_closed hv ho hopen) ⟨hv, .itself hopen⟩
  | true =>
    rcases (slotOf_spec hv ho offset).cases with ⟨⟨root, slot⟩, hslot, -⟩ | ⟨hover, hwhy⟩
    · by_cases hlimit : h.fieldLimit ≤ slot
      · exact .of_eq (project_of_limit hv ho hopen hslot hlimit)
          ⟨hv.collapse _, .collapsed hopen hslot hlimit⟩
      · have hlt : slot < h.fieldLimit := Nat.lt_of_not_le hlimit
        cases hcell : h.fields.cell? root slot with
        | some objs =>
          exact .of_eq (project_of_cell hv ho hopen hslot hlt hcell) ⟨hv, .found hopen hslot hlt hcell⟩
        | none =>
          obtain ⟨via, ty, n, h', -, -, hproj, hv', ha, hkind, hm⟩ :=
            project_of_empty hv ho hopen hslot hlt hcell
          exact .of_eq hproj ⟨hv', .made hopen hslot hlt hcell ha hkind hm⟩
    · obtain ⟨ty, -, hproj⟩ := project_of_opens hv ho hopen
      rw [hproj, hover]
      exact .overflow ⟨rfl, hwhy⟩

namespace Projected

variable {objs : IdSet}

theorem extend (hp : Projected h types base o offset objs h') : h.Extends h' := by
  cases hp with
  | itself => exact .refl h
  | collapsed => exact extends_collapse h _
  | found => exact .refl h
  | made hopen hslot hlt hcell hadds => exact hadds.extend

/-- A projection makes no clones. -/
theorem prototypes (hp : Projected h types base o offset objs h') : h'.prototypes = h.prototypes := by
  cases hp with
  | itself => rfl
  | collapsed => rfl
  | found => rfl
  | made hopen hslot hlt hcell hadds => exact hadds.prototypes

/-- A projection leads to objects. -/
theorem hasObj (hv' : h'.Valid g₀ tys) (ho : h.graph.obj base = .ok o)
    (hp : Projected h types base o offset objs h') {x : NodeId} (hx : x ∈ objs) :
    h'.graph.HasObj x := by
  cases hp with
  | itself =>
    rw [IdSet.mem_ofList, List.mem_singleton] at hx
    exact hx ▸ ⟨o, ho⟩
  | collapsed =>
    rw [IdSet.mem_ofList, List.mem_singleton] at hx
    exact hx ▸ ⟨o, ho⟩
  | found hopen hslot hlt hcell =>
    rw [← IdGrid.setAt_of_cell? hcell, hv'.fields] at hx
    exact ⟨_, hx.choose_spec.1⟩
  | made =>
    rw [hv'.fields] at hx
    exact ⟨_, hx.choose_spec.1⟩

/-- A projection leads somewhere. -/
theorem nonempty (hp : Projected h types base o offset objs h') (hv : h.Valid g₀ tys) :
    ∃ x, x ∈ objs := by
  cases hp with
  | itself => exact ⟨base, by simp⟩
  | collapsed => exact ⟨base, by simp⟩
  | found hopen hslot hlt hcell => exact hv.slot hcell
  | made hopen hslot hlt hcell hadds hkind => exact ⟨_, hadds.fields.mpr (Or.inl ⟨hkind, rfl⟩)⟩

end Projected

/-! ### Asking again -/

/-- Does the later heap tell the fields of the allocation apart, or not, as the earlier one? -/
def SameFields (h h' : Heap) (m : MemId) : Prop :=
  (h'.graph.mem m).fieldInsensitive = (h.graph.mem m).fieldInsensitive

theorem isArrayAt_eq (hext : h.Extends h') (ho : h.graph.obj base = .ok o) :
    h'.isArrayAt types base o = h.isArrayAt types base o := by
  simp only [isArrayAt, hext.graph.isArray, hext.types ⟨o, ho⟩]

theorem opens_eq (hext : h.Extends h') (ho : h.graph.obj base = .ok o)
    (hm : h.SameFields h' o.mem) : h'.opens types base o offset = h.opens types base o offset := by
  simp only [opens, isArrayAt_eq hext ho, show (h'.graph.mem o.mem).fieldInsensitive = _ from hm]

/-- What a projection led to it leads to again, unless it collapsed the allocation. -/
theorem Projected.again (hv : h.Valid g₀ tys) (hv' : h'.Valid g₀ tys)
    (ho : h.graph.obj base = .ok o) {objs : IdSet} (hp : Projected h types base o offset objs h') :
    ((h.graph.mem o.mem).fieldInsensitive = false ∧ (h'.graph.mem o.mem).fieldInsensitive = true) ∨
      h'.project types base offset = .ok (objs, h') := by
  cases hp with
  | itself hclosed => exact Or.inr (project_of_closed hv ho hclosed)
  | collapsed hopen hslot hlimit =>
    refine Or.inl ⟨not_fieldInsensitive_of_opens hopen, ?_⟩
    rw [Graph.mem_collapse, if_pos ⟨rfl, hv.mem ho⟩]
  | found hopen hslot hlt hcell => exact Or.inr (project_of_cell hv ho hopen hslot hlt hcell)
  | @made root slot h' n ty hopen hslot hlt hcell hadds hkind hmem =>
    right
    have hext := hadds.extend
    have hopen' : h'.opens types base o offset = true := by
      rw [opens_eq hext ho (by rw [SameFields, hadds.graph]; rfl)]
      exact hopen
    have hnew : h.graph.nodes.size ∈ h'.fields.setAt root slot :=
      hadds.fields.mpr (Or.inl ⟨hkind, rfl⟩)
    cases hcell' : h'.fields.cell? root slot with
    | none =>
      rw [IdGrid.setAt_of_cell?_none hcell'] at hnew
      exact absurd hnew (IdSet.not_mem_empty _)
    | some objs =>
      rw [IdGrid.setAt_of_cell? hcell']
      exact project_of_cell hv' (hext.graph.obj ho) hopen' hslot (hadds.fieldLimit ▸ hlt) hcell'

/-- An object that joined a slot is a clone. -/
theorem slot_newcomer (hv : h.Valid g₀ tys) (hv' : h'.Valid g₀ tys) (hext : h.Extends h')
    {f x root : NodeId} {slot : Nat} (hf : f ∈ h.fields.setAt root slot)
    (hx : x ∈ h'.fields.setAt root slot) :
    x ∈ h.fields.setAt root slot ∨
      (¬ h.graph.HasObj x ∧ h'.prototypes[x]? = some (h.prototype f)) := by
  obtain ⟨of, hof, hkf⟩ := hv.fields.mp hf
  obtain ⟨ox, hox, hkx⟩ := hv'.fields.mp hx
  rcases hext.graph.obj_cases hox with hold | hnew
  · exact Or.inl (hv.fields.mpr ⟨ox, hold, hkx⟩)
  · right
    have hfresh : ¬ h.graph.HasObj x := fun hx => Nat.not_lt.mpr hnew hx.lt_size
    have hsame := hv'.prototype_eq_of_slot hox (hext.graph.obj hof) hkx hkf
    rw [hext.prototype ⟨of, hof⟩] at hsame
    refine ⟨hfresh, ?_⟩
    cases hproto : h'.prototypes[x]? with
    | none =>
      -- As its own prototype it would be the old prototype of the slot.
      rw [prototype_of_none hproto] at hsame
      obtain ⟨op, hop⟩ : h.graph.HasObj (h.prototype f) := ⟨of, (hv.prototype hof).1⟩
      exact absurd (hsame ▸ ⟨op, hop⟩) hfresh
    | some p => rw [← hsame, prototype_of_some hproto]

/-- An answer stays the same as long as the fields are told apart and no clone joins. -/
theorem project_stable (hv : h.Valid g₀ tys) (hv' : h'.Valid g₀ tys) (hext : h.Extends h')
    (ho : h.graph.obj base = .ok o) (hm : h.SameFields h' o.mem) {objs : IdSet}
    (hproj : h.project types base offset = .ok (objs, h))
    (hclones : ∀ f ∈ objs, ∀ of r k, h.graph.obj f = .ok of → of.kind = .field r k →
      ∀ c : NodeId, h'.prototypes[c]? = some (h.prototype f) →
        h.prototypes[c]? = some (h.prototype f)) :
    ∃ objs', h'.project types base offset = .ok (objs', h') ∧ ∀ x, x ∈ objs' ↔ x ∈ objs := by
  have ho' := hext.graph.obj ho
  obtain ⟨h₁, heq, hp⟩ : ∃ h₁, h₁ = h ∧ Projected h types base o offset objs h₁ :=
    ⟨h, rfl, ((project_spec hv ho).result hproj).2⟩
  cases hp with
  | itself hclosed =>
    refine ⟨_, project_of_closed hv' ho' ?_, fun x => Iff.rfl⟩
    rw [opens_eq hext ho hm]
    exact hclosed
  | collapsed hopen hslot hlimit =>
    have hfi : ((h.graph.collapse o.mem).mem o.mem).fieldInsensitive = true := by
      rw [Graph.mem_collapse, if_pos ⟨rfl, hv.mem ho⟩]
    have hgraph : h.graph.collapse o.mem = h.graph := congrArg Heap.graph heq
    rw [hgraph, not_fieldInsensitive_of_opens hopen] at hfi
    exact absurd hfi (by decide)
  | made hopen hslot hlt hcell hadds hkind hmem =>
    exact absurd (heq ▸ hadds.hasObj_new) hv.not_hasObj_size
  | @found root slot objs hopen hslot hlt hcell =>
    have hopen' : h'.opens types base o offset = true := by
      rw [opens_eq hext ho hm]
      exact hopen
    have hset := IdGrid.setAt_of_cell? hcell
    obtain ⟨f, hf⟩ := hv.slot hcell
    have hold : ∀ {x}, x ∈ objs → x ∈ h'.fields.setAt root slot := by
      intro x hx
      obtain ⟨ox, hox, hk⟩ := hv.fields.mp (hset ▸ hx)
      exact hv'.fields.mpr ⟨ox, hext.graph.obj hox, hk⟩
    cases hcell' : h'.fields.cell? root slot with
    | none =>
      have hf' := hold hf
      rw [IdGrid.setAt_of_cell?_none hcell'] at hf'
      exact absurd hf' (IdSet.not_mem_empty _)
    | some objs' =>
      refine ⟨objs', project_of_cell hv' ho' hopen' hslot (hext.fieldLimit ▸ hlt) hcell', fun x => ?_⟩
      rw [← IdGrid.setAt_of_cell? hcell']
      refine ⟨fun hx => ?_, hold⟩
      rcases slot_newcomer hv hv' hext (hset ▸ hf) hx with hx | ⟨hfresh, hclone⟩
      · exact hset ▸ hx
      · obtain ⟨of, hof, hk⟩ := hv.fields.mp (hset ▸ hf)
        obtain ⟨-, ox, hox, -⟩ := hv.clone (hclones f hf of root slot hof hk x hclone)
        exact absurd ⟨ox, hox⟩ hfresh

end PointsTo.Heap
