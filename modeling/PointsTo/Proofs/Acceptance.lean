import PointsTo.Proofs.Reordering
import PointsTo.Proofs.TypeLookups

/-! Which descriptions are accepted.

    A description is well-formed if its types are in the table and their qualifiers come to an end,
    declared names are distinct, used names are declared, and ids of statements are distinct. Each
    stage of the loader accepts exactly what is in order by itself and uses a name that is not taken,
    given the names that the stages before it made known; so the loader as a whole accepts exactly the
    well-formed descriptions. -/

namespace PointsTo

/-! ### Well-formed descriptions -/

namespace StmtKindDesc

/-- The names that a statement uses as values. -/
def valueNames : StmtKindDesc → List String
  | .addr _ dst => [dst]
  | .copy src dst _ => [src, dst]
  | .gep base dst _ _ => [base, dst]
  | .load ptr dst _ => [ptr, dst]
  | .store src ptr _ => [src, ptr]
  | .phi dst operands _ => dst :: operands

/-- The type that a statement is annotated with. -/
def type? : StmtKindDesc → Option TypeId
  | .addr _ _ | .copy _ _ _ => none
  | .gep _ _ _ ty | .load _ _ ty | .store _ _ ty => ty
  | .phi _ _ receiver => receiver

/-- Is the statement a constructor's phi that has no operand to take the receiver from? -/
def lacksReceiver : StmtKindDesc → Bool
  | .phi _ [] (some _) => true
  | _ => false

end StmtKindDesc

namespace ProgramDesc

/-- The ids of the statements. -/
def stmtIds (d : ProgramDesc) : List String := d.statements.filterMap StmtDesc.id

/-- Is the name that of a declared object or of a special one? -/
def HasObject (d : ProgramDesc) (name : String) : Prop :=
  name ∈ d.objects.map ObjectDesc.name ∨ name = "blackhole" ∨ name = "constant"

/-- A statement uses declared names, a type of the program, and a receiver that is there. -/
structure Admits (d : ProgramDesc) (k : StmtKindDesc) : Prop where
  values : ∀ name ∈ k.valueNames, name ∈ d.values
  objects : ∀ name ∈ k.objectNames, d.HasObject name
  type : ∀ id ∈ k.type?, id < d.types.length
  receiver : k.lacksReceiver = false

/-- What statements may use does not depend on what follows the declarations. -/
theorem admits_iff {d : ProgramDesc} {k : StmtKindDesc} {statements : List StmtDesc} :
    Admits { d with statements } k ↔ d.Admits k :=
  ⟨fun h => ⟨h.values, h.objects, h.type, h.receiver⟩, fun h => ⟨h.values, h.objects, h.type, h.receiver⟩⟩

/-- The description is that of a program. -/
structure WellFormed (d : ProgramDesc) : Prop where
  references : ∀ ty ∈ d.types, ∀ id ∈ ty.references, id < d.types.length
  qualifiers : ∀ id < d.types.length, ¬ (⟨d.types.toArray⟩ : TypeTable).Endless (some id)
  objectTypes : ∀ o ∈ d.objects, ∀ id ∈ o.ty, id < d.types.length
  values_nodup : d.values.Nodup
  objects_nodup : (d.objects.map ObjectDesc.name).Nodup
  apart : ∀ o ∈ d.objects, o.name ∉ d.values
  statements : ∀ sd ∈ d.statements, d.Admits sd.kind
  stmtIds_nodup : d.stmtIds.Nodup
  flows : ∀ f ∈ d.flows, f.src ∈ d.stmtIds ∧ f.dst ∈ d.stmtIds ∧ ∀ name ∈ f.objs, d.HasObject name
  seeds : ∀ sd ∈ d.seeds, sd.value ∈ d.values ∧ ∀ name ∈ sd.objs, d.HasObject name

end ProgramDesc

namespace Builder

/-! ### Types -/

theorem closed_iff {descs : List TypeDesc} : (⟨descs.toArray⟩ : TypeTable).Closed ↔
    ∀ ty ∈ descs, ∀ id ∈ ty.references, id < descs.length := by
  have hget : ∀ {id ty}, (⟨descs.toArray⟩ : TypeTable).get? id = some ty ↔ descs[id]? = some ty := by
    simp [TypeTable.get?]
  have hsize : (⟨descs.toArray⟩ : TypeTable).size = descs.length := rfl
  constructor
  · intro h ty hty id hid
    obtain ⟨i, hi⟩ := List.mem_iff_getElem?.mp hty
    exact hsize ▸ h (hget.mpr hi) id hid
  · intro h i ty hi id hid
    exact hsize ▸ h ty (List.mem_of_getElem? (hget.mp hi)) id hid

theorem checkQualifiers_eq_ok {t : TypeTable} (hc : t.Closed) {id : TypeId} (hid : id < t.size) :
    checkQualifiers t id = .ok () ↔ ¬ t.Endless (some id) := by
  obtain ⟨b, hb, hendless⟩ := TypeTable.hasEndlessQualifiers_spec hc hid
  rw [← hendless, checkQualifiers, hb]
  cases b with
  | true => exact iff_of_false (fun h => by cases h) (by simp)
  | false => exact iff_of_true rfl (by simp)

theorem ofTypes_eq_ok {types : TypeTable} {b : Builder} (h : ofTypes types = .ok b) :
    b = { types } := by
  simp only [ofTypes, bind_eq_ok, pure_eq_ok, Except.ok.injEq] at h
  obtain ⟨-, -, -, -, h⟩ := h
  exact h.symm

theorem ofTypes_ok_iff {descs : List TypeDesc} : (∃ b, ofTypes ⟨descs.toArray⟩ = .ok b) ↔
    (∀ ty ∈ descs, ∀ id ∈ ty.references, id < descs.length) ∧
    ∀ id < descs.length, ¬ (⟨descs.toArray⟩ : TypeTable).Endless (some id) := by
  rw [← closed_iff]
  refine bind_ok_iff ?_ fun _ hrefs => ?_
  · exact Unique.exists_iff.trans checkReferences_eq_ok
  · have hc : TypeTable.Closed ⟨descs.toArray⟩ := checkReferences_eq_ok.mp hrefs
    refine bind_pure_ok_iff.trans (Unique.exists_iff.trans (forM_eq_ok.trans (forall_congr' fun id => ?_)))
    rw [TypeTable.ids, List.mem_range]
    exact forall_congr' fun hid => checkQualifiers_eq_ok hc hid

/-! ### Known names -/

/-- The builder knows the names that the description declares, and no others. -/
structure Knows (d : ProgramDesc) (b : Builder) : Prop where
  types : b.types = ⟨d.types.toArray⟩
  values : ∀ name, name ∈ b.valueIds ↔ name ∈ d.values
  objects : ∀ name, name ∈ b.objectIds ↔ name ∈ d.objects.map ObjectDesc.name
  stmts : ∀ name, name ∈ b.stmtIds ↔ name ∈ d.stmtIds

theorem knows_empty (types : List TypeDesc) : Knows { types } { types := ⟨types.toArray⟩ } :=
  ⟨rfl, by simp, by simp, by simp [ProgramDesc.stmtIds]⟩

variable {d : ProgramDesc} {b c : Builder}

namespace Knows

/-- Flows and seeds declare no names. -/
theorem flows_seeds (h : b.Knows d) {flows : List FlowDesc} {seeds : List SeedDesc} :
    b.Knows { d with flows, seeds } :=
  ⟨h.types, h.values, h.objects, h.stmts⟩

theorem sameNames (h : b.Knows d) (hs : SameNames b c) : c.Knows d where
  types := hs.types.trans h.types
  values := hs.valueIds ▸ h.values
  objects := hs.objectIds ▸ h.objects
  stmts name := by rw [← h.stmts, ← Std.TreeMap.contains_iff_mem, hs.stmts, Std.TreeMap.contains_iff_mem]

theorem value_ok_iff (h : b.Knows d) {name : String} : (∃ v, b.value name = .ok v) ↔ name ∈ d.values := by
  rw [← h.values, Std.TreeMap.mem_iff_isSome_getElem?, Builder.value]
  cases b.valueIds[name]? with
  | none => simp
  | some v => simp

theorem stmt_ok_iff (h : b.Knows d) {name : String} : (∃ st, b.stmt name = .ok st) ↔ name ∈ d.stmtIds := by
  rw [← h.stmts, Std.TreeMap.mem_iff_isSome_getElem?, Builder.stmt]
  cases b.stmtIds[name]? with
  | none => simp
  | some v => simp

theorem checkType_ok_iff (h : b.Knows d) {ty : Option TypeId} :
    (∃ u, b.checkType ty = .ok u) ↔ ∀ id ∈ ty, id < d.types.length := by
  have hsize : b.types.size = d.types.length := by rw [h.types]; rfl
  cases ty with
  | none => exact iff_of_true ⟨_, rfl⟩ (by simp)
  | some id =>
    have hcheck : (∃ u, b.checkType (some id) = .ok u) ↔ id < b.types.size :=
      Unique.exists_iff.trans checkId_eq_ok
    rw [hcheck, hsize]
    simp

theorem object_ok_iff (h : b.Knows d) {name : String} :
    (∃ r, b.object name = .ok r) ↔ d.HasObject name := by
  rw [ProgramDesc.HasObject, ← h.objects, Std.TreeMap.mem_iff_isSome_getElem?, Builder.object]
  split
  · exact iff_of_true ⟨_, rfl⟩ (Or.inr (Or.inl ‹_›))
  · split
    · exact iff_of_true ⟨_, rfl⟩ (Or.inr (Or.inr ‹_›))
    · cases b.objectIds[name]? with
      | none => simp [*]
      | some o => simp

theorem objects_ok_iff (h : b.Knows d) {names : List String} :
    (∃ r, b.objects names = .ok r) ↔ ∀ name ∈ names, d.HasObject name := by
  induction names generalizing b with
  | nil => exact iff_of_true ⟨_, rfl⟩ (by simp)
  | cons name names ih =>
    rw [List.forall_mem_cons]
    refine bind_ok_iff h.object_ok_iff fun _ hid => ?_
    exact bind_pure_ok_iff.trans (ih (h.sameNames (sameNames_object hid)))

theorem mapM_value_ok_iff (h : b.Knows d) {names : List String} :
    (∃ ids, names.mapM b.value = .ok ids) ↔ ∀ name ∈ names, name ∈ d.values := by
  induction names with
  | nil => exact iff_of_true ⟨_, rfl⟩ (by simp)
  | cons name names ih =>
    rw [List.mapM_cons, List.forall_mem_cons]
    exact bind_ok_iff h.value_ok_iff fun _ _ => bind_pure_ok_iff.trans ih

/-- When a statement that uses two values and a type can be resolved. -/
theorem typed_ok_iff {α : Type} (h : b.Knows d) {x y : String} {ty : Option TypeId} {r : NodeId → NodeId → α} :
    (∃ n, (do
      let u ← b.value x
      let v ← b.value y
      b.checkType ty
      return r u v) = Except.ok n) ↔ x ∈ d.values ∧ y ∈ d.values ∧ ∀ id ∈ ty, id < d.types.length :=
  bind_ok_iff h.value_ok_iff fun _ _ => bind_ok_iff h.value_ok_iff fun _ _ =>
    bind_pure_ok_iff.trans h.checkType_ok_iff

theorem resolve_ok_iff (h : b.Knows d) {k : StmtKindDesc} :
    (∃ r, b.resolve k = .ok r) ↔ d.Admits k := by
  have hadmits : d.Admits k ↔ (∀ name ∈ k.valueNames, name ∈ d.values) ∧
      (∀ name ∈ k.objectNames, d.HasObject name) ∧ (∀ id ∈ k.type?, id < d.types.length) ∧
      k.lacksReceiver = false :=
    ⟨fun h => ⟨h.values, h.objects, h.type, h.receiver⟩, fun h => ⟨h.1, h.2.1, h.2.2.1, h.2.2.2⟩⟩
  rw [hadmits]
  cases k with
  | addr obj dst =>
    have hresolve : (∃ r, b.resolve (.addr obj dst) = .ok r) ↔ d.HasObject obj ∧ dst ∈ d.values :=
      bind_ok_iff h.object_ok_iff fun _ ho =>
        bind_pure_ok_iff.trans (h.sameNames (sameNames_object ho)).value_ok_iff
    rw [hresolve]
    simp [StmtKindDesc.valueNames, StmtKindDesc.objectNames, StmtKindDesc.type?,
      StmtKindDesc.lacksReceiver, and_comm]
  | copy src dst init =>
    have hresolve : (∃ r, b.resolve (.copy src dst init) = .ok r) ↔ src ∈ d.values ∧ dst ∈ d.values :=
      bind_ok_iff h.value_ok_iff fun _ _ => bind_pure_ok_iff.trans h.value_ok_iff
    rw [hresolve]
    simp [StmtKindDesc.valueNames, StmtKindDesc.objectNames, StmtKindDesc.type?,
      StmtKindDesc.lacksReceiver]
  | gep base dst offset ty | load ptr dst ty | store src ptr ty =>
    refine h.typed_ok_iff.trans ?_
    simp [StmtKindDesc.valueNames, StmtKindDesc.objectNames, StmtKindDesc.type?,
      StmtKindDesc.lacksReceiver, and_assoc]
  | phi dst operands receiver =>
    have hresolve : (∃ r, b.resolve (.phi dst operands receiver) = .ok r) ↔
        (∀ name ∈ operands, name ∈ d.values) ∧ (receiver.isSome && operands.isEmpty) = false ∧
        dst ∈ d.values ∧ ∀ id ∈ receiver, id < d.types.length := by
      refine bind_ok_iff h.mapM_value_ok_iff fun ids hids => ?_
      have hempty : ids.isEmpty = operands.isEmpty := by
        cases mapM_value_spec hids with
        | nil => rfl
        | cons _ _ => rfl
      rw [hempty]
      split
      · rename_i hmissing
        exact iff_of_false error_not_ok fun h => by simp [hmissing] at h
      · rename_i hthere
        rw [Bool.not_eq_true] at hthere
        rw [and_iff_right hthere]
        exact bind_ok_iff h.value_ok_iff fun _ _ => bind_pure_ok_iff.trans h.checkType_ok_iff
    have hlacks : StmtKindDesc.lacksReceiver (.phi dst operands receiver) =
        (receiver.isSome && operands.isEmpty) := by
      cases operands <;> cases receiver <;> rfl
    rw [hresolve, hlacks]
    simp only [StmtKindDesc.valueNames, StmtKindDesc.objectNames, StmtKindDesc.type?,
      List.forall_mem_cons, List.not_mem_nil, false_implies, implies_true, true_and]
    tauto

end Knows

/-! ### Declarations -/

theorem addValue_ok_iff {name : String} : (∃ c, b.addValue name = .ok c) ↔ name ∉ b.valueIds := by
  rw [← Std.TreeMap.contains_iff_mem, Builder.addValue]
  split
  · exact iff_of_false error_not_ok (not_not_intro ‹_›)
  · exact iff_of_true ⟨_, rfl⟩ ‹_›

theorem addObject_ok_iff {o : ObjectDesc} : (∃ c, b.addObject o = .ok c) ↔
    o.name ∉ b.objectIds ∧ o.name ∉ b.valueIds ∧ ∃ u, b.checkType o.ty = .ok u := by
  rw [← Std.TreeMap.contains_iff_mem, ← Std.TreeMap.contains_iff_mem, Builder.addObject]
  split
  · rename_i htaken
    refine iff_of_false error_not_ok fun h => ?_
    simp [h.1, h.2.1] at htaken
  · rename_i hnew
    simp only [Bool.or_eq_true, not_or] at hnew
    rw [and_iff_right hnew.1, and_iff_right hnew.2]
    exact bind_pure_ok_iff

theorem Knows.addValue (h : b.Knows d) {name : String} (hadd : b.addValue name = .ok c) :
    c.Knows { d with values := d.values ++ [name] } := by
  obtain ⟨-, rfl⟩ := addValue_spec hadd
  refine ⟨h.types, fun n => ?_, h.objects, h.stmts⟩
  rw [Std.TreeMap.mem_insert, h.values, List.mem_append, List.mem_singleton,
    Std.LawfulEqCmp.compare_eq_iff_eq, or_comm, eq_comm]

theorem Knows.addObject (h : b.Knows d) {o : ObjectDesc} (hadd : b.addObject o = .ok c) :
    c.Knows { d with objects := d.objects ++ [o] } := by
  obtain ⟨-, ha⟩ := addObject_spec hadd
  refine ⟨ha.types.trans h.types, ha.valueIds ▸ h.values, fun n => ?_, ha.stmtIds ▸ h.stmts⟩
  rw [Std.TreeMap.mem_iff_isSome_getElem?, addObject_objectIds hadd, List.map_append, List.mem_append,
    ← h.objects, Std.TreeMap.mem_iff_isSome_getElem?]
  split
  · simp [*]
  · simp [*]

theorem Knows.addStmt (h : b.Knows d) {sd : StmtDesc} (hadd : b.addStmt sd = .ok c) :
    c.Knows { d with statements := d.statements ++ [sd] } := by
  obtain ⟨hs, hids⟩ := addStmt_names hadd
  refine ⟨hs.types.trans h.types, hs.valueIds ▸ h.values, hs.objectIds ▸ h.objects, fun n => ?_⟩
  rw [← Std.TreeMap.contains_iff_mem, hids, Std.TreeMap.contains_iff_mem, h.stmts]
  simp [ProgramDesc.stmtIds, or_comm]

/-! ### Flows and seeds -/

theorem sameNames_addFlow {f : FlowDesc} (h : b.addFlow f = .ok c) : SameNames b c := by
  simp only [Builder.addFlow, bind_eq_ok, pure_eq_ok] at h
  obtain ⟨_, -, _, -, ⟨objs, b₁⟩, hobjs, h⟩ := h
  cases h
  have hs := sameNames_objects hobjs
  exact ⟨⟨hs.types, hs.valueIds, hs.objectIds⟩, hs.stmts⟩

theorem sameNames_addSeed {sd : SeedDesc} (h : b.addSeed sd = .ok c) : SameNames b c := by
  simp only [Builder.addSeed, bind_eq_ok, pure_eq_ok] at h
  obtain ⟨_, -, ⟨objs, b₁⟩, hobjs, h⟩ := h
  cases h
  have hs := sameNames_objects hobjs
  exact ⟨⟨hs.types, hs.valueIds, hs.objectIds⟩, hs.stmts⟩

theorem Knows.addFlow_ok_iff (h : b.Knows d) {f : FlowDesc} : (∃ c, b.addFlow f = .ok c) ↔
    f.src ∈ d.stmtIds ∧ f.dst ∈ d.stmtIds ∧ ∀ name ∈ f.objs, d.HasObject name :=
  bind_ok_iff h.stmt_ok_iff fun _ _ => bind_ok_iff h.stmt_ok_iff fun _ _ =>
    bind_pure_ok_iff.trans h.objects_ok_iff

theorem Knows.addSeed_ok_iff (h : b.Knows d) {sd : SeedDesc} : (∃ c, b.addSeed sd = .ok c) ↔
    sd.value ∈ d.values ∧ ∀ name ∈ sd.objs, d.HasObject name :=
  bind_ok_iff h.value_ok_iff fun _ _ => bind_pure_ok_iff.trans h.objects_ok_iff

/-! ### Stages of the loader -/

theorem knows_types (h : ofTypes ⟨d.types.toArray⟩ = .ok b) :
    b.Knows { d with values := [], objects := [], statements := [] } := by
  obtain rfl := ofTypes_eq_ok h
  exact (knows_empty d.types).flows_seeds

theorem addValues_ok_iff (h : b.Knows { d with values := [], objects := [], statements := [] }) :
    (∃ c, d.values.foldlM addValue b = .ok c) ↔ d.values.Nodup := by
  rw [foldlM_ok_iff (I := fun done c => c.Knows { d with values := done, objects := [], statements := [] })
    (k := some) (P := fun _ => True) (fun hc => ?_) (fun hc hadd => hc.addValue hadd) h]
  · simp
  · rw [addValue_ok_iff, hc.values]
    simp

theorem Knows.addValues (h : b.Knows { d with values := [], objects := [], statements := [] })
    (hfold : d.values.foldlM Builder.addValue b = .ok c) :
    c.Knows { d with objects := [], statements := [] } :=
  foldlM_result (I := fun done c => c.Knows { d with values := done, objects := [], statements := [] }) h
    (fun _ _ _ _ _ _ hc hadd => hc.addValue hadd) hfold

theorem addObjects_ok_iff (h : b.Knows { d with objects := [], statements := [] }) :
    (∃ c, d.objects.foldlM addObject b = .ok c) ↔
      (∀ o ∈ d.objects, o.name ∉ d.values ∧ ∀ id ∈ o.ty, id < d.types.length) ∧
      (d.objects.map ObjectDesc.name).Nodup := by
  rw [foldlM_ok_iff (I := fun done c => c.Knows { d with objects := done, statements := [] })
    (k := fun o => some o.name) (P := fun o => o.name ∉ d.values ∧ ∀ id ∈ o.ty, id < d.types.length)
    (fun hc => ?_) (fun hc hadd => hc.addObject hadd) h]
  · simp
  · rw [addObject_ok_iff, hc.objects, hc.values, hc.checkType_ok_iff]
    simp [and_comm]

theorem Knows.addObjects (h : b.Knows { d with objects := [], statements := [] })
    (hfold : d.objects.foldlM Builder.addObject b = .ok c) : c.Knows { d with statements := [] } :=
  foldlM_result (I := fun done c => c.Knows { d with objects := done, statements := [] }) h
    (fun _ _ _ _ _ _ hc hadd => hc.addObject hadd) hfold

theorem addStmts_ok_iff (h : b.Knows { d with statements := [] }) :
    (∃ c, d.statements.foldlM addStmt b = .ok c) ↔
      (∀ sd ∈ d.statements, d.Admits sd.kind) ∧ d.stmtIds.Nodup := by
  rw [foldlM_addStmt_ok_iff]
  refine and_congr_left fun _ => forall₂_congr fun sd _ => ?_
  rw [h.resolve_ok_iff, ProgramDesc.admits_iff]
  refine and_iff_left fun name _ => ?_
  rw [← Bool.not_eq_true, Std.TreeMap.contains_iff_mem, h.stmts]
  simp [ProgramDesc.stmtIds]

theorem Knows.addStmts (h : b.Knows { d with statements := [] })
    (hfold : d.statements.foldlM Builder.addStmt b = .ok c) : c.Knows d :=
  foldlM_result (I := fun done c => c.Knows { d with statements := done }) h
    (fun _ _ _ _ _ _ hc hadd => hc.addStmt hadd) hfold

theorem addFlows_ok_iff (h : b.Knows d) : (∃ c, d.flows.foldlM addFlow b = .ok c) ↔
    ∀ f ∈ d.flows, f.src ∈ d.stmtIds ∧ f.dst ∈ d.stmtIds ∧ ∀ name ∈ f.objs, d.HasObject name := by
  refine (foldlM_ok_iff (I := fun _ c => c.Knows d) (k := fun _ => (none : Option String))
    (fun hc => hc.addFlow_ok_iff.trans (and_iff_left ?_).symm)
    (fun hc hadd => hc.sameNames (sameNames_addFlow hadd)) h).trans (and_iff_left ?_)
  · simp
  · simp

theorem Knows.addFlows (h : b.Knows d) (hfold : d.flows.foldlM Builder.addFlow b = .ok c) : c.Knows d :=
  foldlM_result (I := fun _ c => c.Knows d) h
    (fun _ _ _ _ _ _ hc hadd => hc.sameNames (sameNames_addFlow hadd)) hfold

theorem addSeeds_ok_iff (h : b.Knows d) : (∃ c, d.seeds.foldlM addSeed b = .ok c) ↔
    ∀ sd ∈ d.seeds, sd.value ∈ d.values ∧ ∀ name ∈ sd.objs, d.HasObject name := by
  refine (foldlM_ok_iff (I := fun _ c => c.Knows d) (k := fun _ => (none : Option String))
    (fun hc => hc.addSeed_ok_iff.trans (and_iff_left ?_).symm)
    (fun hc hadd => hc.sameNames (sameNames_addSeed hadd)) h).trans (and_iff_left ?_)
  · simp
  · simp

end Builder

/-- With room for the types, the loader accepts the well-formed descriptions. -/
theorem Program.assemble_ok_iff {d : ProgramDesc} :
    (∃ p, Program.assemble ⟨d.types.toArray⟩ d = .ok p) ↔ d.WellFormed := by
  have hstages : (∃ p, Program.assemble ⟨d.types.toArray⟩ d = .ok p) ↔ _ :=
    bind_ok_iff Builder.ofTypes_ok_iff fun _ h₀ =>
    bind_ok_iff (Builder.addValues_ok_iff (Builder.knows_types h₀)) fun _ h₁ =>
    bind_ok_iff (Builder.addObjects_ok_iff ((Builder.knows_types h₀).addValues h₁)) fun _ h₂ =>
    bind_ok_iff (Builder.addStmts_ok_iff (((Builder.knows_types h₀).addValues h₁).addObjects h₂)) fun _ h₃ =>
    have hknows := (((Builder.knows_types h₀).addValues h₁).addObjects h₂).addStmts h₃
    bind_ok_iff (Builder.addFlows_ok_iff hknows) fun _ h₄ =>
    bind_pure_ok_iff.trans (Builder.addSeeds_ok_iff (hknows.addFlows h₄))
  rw [hstages]
  constructor
  · rintro ⟨⟨hrefs, hquals⟩, hvalues, ⟨hobjects, hnames⟩, ⟨hstmts, hids⟩, hflows, hseeds⟩
    exact ⟨hrefs, hquals, fun o ho => (hobjects o ho).2, hvalues, hnames, fun o ho => (hobjects o ho).1,
      hstmts, hids, hflows, hseeds⟩
  · intro h
    exact ⟨⟨h.references, h.qualifiers⟩, h.values_nodup,
      ⟨fun o ho => ⟨h.apart o ho, h.objectTypes o ho⟩, h.objects_nodup⟩,
      ⟨h.statements, h.stmtIds_nodup⟩, h.flows, h.seeds⟩

theorem Program.build_ok_iff {d : ProgramDesc} :
    (∃ p, Program.build d = .ok p) ↔ d.types.length ≤ idLimit ∧ d.WellFormed := by
  simp only [Program.build_eq_ok, exists_and_left, Program.assemble_ok_iff]

end PointsTo
