import Mathlib.Data.List.Perm.Basic
import Mathlib.Data.List.Range
import Mathlib.Logic.Equiv.Defs
import PointsTo.Proofs.Building

/-! Programs with their statements in another order.

    Whether a builder accepts a declaration depends on the names that it knows, and not on the graph
    behind them. Statements are accepted if their names are known and their ids are new; the order in
    which they are listed does not matter for that. -/

namespace PointsTo

/-- The names that a statement uses as objects. -/
def StmtKindDesc.objectNames : StmtKindDesc → List String
  | .addr obj _ => [obj]
  | _ => []

namespace Builder

/-! ### Known names -/

/-- The builders know the same types, values and objects. -/
structure SameDecls (b b' : Builder) : Prop where
  types : b'.types = b.types
  valueIds : b'.valueIds = b.valueIds
  objectIds : b'.objectIds = b.objectIds

/-- The builders know the same statements as well. -/
structure SameNames (b b' : Builder) : Prop extends SameDecls b b' where
  stmts : ∀ name : String, b'.stmtIds.contains name = b.stmtIds.contains name

variable {b b' c : Builder}

theorem SameDecls.symm (hs : SameDecls b b') : SameDecls b' b :=
  ⟨hs.types.symm, hs.valueIds.symm, hs.objectIds.symm⟩

theorem SameDecls.trans (hs : SameDecls b b') (hs' : SameDecls b' c) : SameDecls b c :=
  ⟨hs'.types.trans hs.types, hs'.valueIds.trans hs.valueIds, hs'.objectIds.trans hs.objectIds⟩

theorem SameNames.trans (hs : SameNames b b') (hs' : SameNames b' c) : SameNames b c :=
  ⟨hs.toSameDecls.trans hs'.toSameDecls, fun name => (hs'.stmts name).trans (hs.stmts name)⟩

theorem SameDecls.value (hs : SameDecls b b') : b'.value = b.value := by
  funext name
  simp only [Builder.value, hs.valueIds]

theorem SameDecls.checkType (hs : SameDecls b b') : b'.checkType = b.checkType := by
  funext ty
  simp only [Builder.checkType, hs.types]

/-- Naming an object makes no name known. -/
theorem sameNames_object {name : String} {id : NodeId} (h : b.object name = .ok (id, c)) :
    SameNames b c := by
  unfold object at h
  split at h
  · cases h
    exact ⟨⟨rfl, rfl, rfl⟩, fun _ => rfl⟩
  · split at h
    · cases h
      exact ⟨⟨rfl, rfl, rfl⟩, fun _ => rfl⟩
    · split at h
      · cases h
        exact ⟨⟨rfl, rfl, rfl⟩, fun _ => rfl⟩
      · cases h

theorem sameNames_objects {names : List String} {ids : List NodeId} (h : b.objects names = .ok (ids, c)) :
    SameNames b c := by
  induction names generalizing b ids with
  | nil =>
    cases h
    exact ⟨⟨rfl, rfl, rfl⟩, fun _ => rfl⟩
  | cons name names ih =>
    simp only [Builder.objects, bind_eq_ok, pure_eq_ok] at h
    obtain ⟨⟨id, b₁⟩, hid, ⟨rest, b₂⟩, hrest, h⟩ := h
    cases h
    exact (sameNames_object hid).trans (ih hrest)

theorem SameDecls.object (hs : SameDecls b b') {name : String} {r : NodeId × Builder}
    (h : b.object name = .ok r) : ∃ r', b'.object name = .ok r' := by
  unfold Builder.object at h ⊢
  rw [hs.objectIds]
  split
  · exact ⟨_, rfl⟩
  · rename_i hname
    rw [if_neg hname] at h
    split
    · exact ⟨_, rfl⟩
    · rename_i hname
      rw [if_neg hname] at h
      split at h
      · exact ⟨_, rfl⟩
      · cases h

/-- What a builder resolves every builder with the same names resolves. -/
theorem SameDecls.resolve (hs : SameDecls b b') {k : StmtKindDesc}
    {r : (StmtKind × Option TypeId) × Builder} (h : b.resolve k = .ok r) :
    ∃ r', b'.resolve k = .ok r' := by
  cases k with
  | addr obj dst =>
    simp only [Builder.resolve, bind_eq_ok] at h
    obtain ⟨⟨o, c⟩, ho, v, hv, -⟩ := h
    obtain ⟨⟨o', c'⟩, ho'⟩ := hs.object ho
    have hvalue : c'.value = c.value :=
      (((sameNames_object ho).symm.trans hs).trans (sameNames_object ho').toSameDecls).value
    exact ⟨((.addr o' v, none), c'), by simp only [Builder.resolve, ho', ok_bind, hvalue, hv]; rfl⟩
  | copy src dst init =>
    simp only [Builder.resolve, bind_eq_ok] at h
    obtain ⟨u, hu, v, hv, -⟩ := h
    exact ⟨((.copy u v init, none), b'), by simp only [Builder.resolve, hs.value, hu, hv, ok_bind]; rfl⟩
  | gep base dst offset ty =>
    simp only [Builder.resolve, bind_eq_ok] at h
    obtain ⟨u, hu, v, hv, ⟨⟩, hty, -⟩ := h
    exact ⟨_, by
      simp only [Builder.resolve, hs.value, hs.checkType, hu, hv, hty, ok_bind]; rfl⟩
  | load ptr dst ty =>
    simp only [Builder.resolve, bind_eq_ok] at h
    obtain ⟨u, hu, v, hv, ⟨⟩, hty, -⟩ := h
    exact ⟨((.load u v, ty), b'), by
      simp only [Builder.resolve, hs.value, hs.checkType, hu, hv, hty, ok_bind]; rfl⟩
  | store src ptr ty =>
    simp only [Builder.resolve, bind_eq_ok] at h
    obtain ⟨u, hu, v, hv, ⟨⟩, hty, -⟩ := h
    exact ⟨((.store u v, ty), b'), by
      simp only [Builder.resolve, hs.value, hs.checkType, hu, hv, hty, ok_bind]; rfl⟩
  | phi dst operands receiver =>
    simp only [Builder.resolve, bind_eq_ok] at h
    obtain ⟨ids, hids, h⟩ := h
    by_cases hmissing : (receiver.isSome && ids.isEmpty) = true
    · rw [if_pos hmissing] at h
      cases h
    rw [if_neg hmissing] at h
    simp only [bind_eq_ok] at h
    obtain ⟨v, hv, ⟨⟩, hty, -⟩ := h
    refine ⟨((.phi v ids, receiver), b'), ?_⟩
    simp only [Builder.resolve, hs.value, hs.checkType, hids, ok_bind]
    rw [if_neg hmissing]
    simp only [hv, hty, ok_bind]
    rfl

/-- Resolving a statement names the objects that it uses. -/
theorem resolve_objects {k : StmtKindDesc} {n : StmtKind × Option TypeId} (h : b.resolve k = .ok (n, c)) :
    ∃ ids, b.objects k.objectNames = .ok (ids, c) := by
  cases k with
  | addr obj dst =>
    simp only [Builder.resolve, bind_eq_ok, pure_eq_ok] at h
    obtain ⟨⟨o, c'⟩, ho, v, -, h⟩ := h
    cases h
    exact ⟨[o], by simp only [StmtKindDesc.objectNames, Builder.objects, ho, ok_bind]; rfl⟩
  | copy src dst init =>
    simp only [Builder.resolve, bind_eq_ok, pure_eq_ok] at h
    obtain ⟨u, -, v, -, h⟩ := h
    cases h
    exact ⟨[], rfl⟩
  | gep base dst offset ty | load ptr dst ty | store src ptr ty =>
    simp only [Builder.resolve, bind_eq_ok, pure_eq_ok] at h
    obtain ⟨u, -, v, -, -, -, h⟩ := h
    cases h
    exact ⟨[], rfl⟩
  | phi dst operands receiver =>
    simp only [Builder.resolve, bind_eq_ok] at h
    obtain ⟨ids, -, h⟩ := h
    by_cases hmissing : (receiver.isSome && ids.isEmpty) = true
    · rw [if_pos hmissing] at h
      cases h
    rw [if_neg hmissing] at h
    simp only [bind_eq_ok, pure_eq_ok] at h
    obtain ⟨v, -, -, -, h⟩ := h
    cases h
    exact ⟨[], rfl⟩

theorem sameNames_resolve {k : StmtKindDesc} {n : StmtKind × Option TypeId}
    (h : b.resolve k = .ok (n, c)) : SameNames b c := by
  obtain ⟨ids, hids⟩ := resolve_objects h
  exact sameNames_objects hids

/-! ### Statements -/

theorem addStmt_ok_iff {sd : StmtDesc} : (∃ c, b.addStmt sd = .ok c) ↔
    (∃ r, b.resolve sd.kind = .ok r) ∧ ∀ name, sd.id = some name → b.stmtIds.contains name = false := by
  constructor
  · rintro ⟨c, h⟩
    simp only [Builder.addStmt, bind_eq_ok] at h
    obtain ⟨⟨⟨kind, ty⟩, b₁⟩, hresolve, h⟩ := h
    refine ⟨⟨_, hresolve⟩, fun name hname => ?_⟩
    rw [← (sameNames_resolve hresolve).stmts]
    simp only [hname] at h
    by_contra hdup
    rw [if_pos (by simpa using hdup)] at h
    cases h
  · rintro ⟨⟨⟨⟨kind, ty⟩, b₁⟩, hresolve⟩, hnew⟩
    simp only [Builder.addStmt, hresolve, ok_bind]
    cases hname : sd.id with
    | none => exact ⟨_, rfl⟩
    | some name =>
      have hfresh := hnew name hname
      rw [← (sameNames_resolve hresolve).stmts] at hfresh
      simp only [hfresh]
      exact ⟨_, rfl⟩

theorem addStmt_names {sd : StmtDesc} (h : b.addStmt sd = .ok c) : SameDecls b c ∧
    ∀ name, c.stmtIds.contains name = true ↔ sd.id = some name ∨ b.stmtIds.contains name = true := by
  obtain ⟨kind, ty, b₁, hresolve, -, htypes, hvalues, hobjects, -, hids⟩ := addStmt_spec h
  have hs := sameNames_resolve hresolve
  refine ⟨hs.toSameDecls.trans ⟨htypes, hvalues, hobjects⟩, fun name => ?_⟩
  rw [← hs.stmts, Std.TreeMap.contains_eq_isSome_getElem?, Std.TreeMap.contains_eq_isSome_getElem?, hids]
  split
  · simp [*]
  · simp [*]

/-- What the builder knows after it read some statements. -/
theorem SameDecls.addStmt {done : List StmtDesc} (hdecls : SameDecls b c)
    (hknown : ∀ name, c.stmtIds.contains name = true ↔
      name ∈ done.filterMap StmtDesc.id ∨ b.stmtIds.contains name = true)
    {sd : StmtDesc} (hadd : c.addStmt sd = .ok b') : SameDecls b b' ∧
      ∀ name, b'.stmtIds.contains name = true ↔
        name ∈ (done ++ [sd]).filterMap StmtDesc.id ∨ b.stmtIds.contains name = true := by
  obtain ⟨hdecls', hknown'⟩ := addStmt_names hadd
  refine ⟨hdecls.trans hdecls', fun name => ?_⟩
  rw [hknown', hknown, List.filterMap_append, List.mem_append]
  simp only [List.mem_filterMap, List.mem_singleton, exists_eq_left]
  rw [or_assoc]
  exact or_left_comm

/-- Statements are accepted if they can be resolved and their ids are new and distinct. -/
theorem foldlM_addStmt_ok_iff {statements : List StmtDesc} :
    (∃ c, statements.foldlM Builder.addStmt b = .ok c) ↔
      (∀ sd ∈ statements, (∃ r, b.resolve sd.kind = .ok r) ∧
        ∀ name, sd.id = some name → b.stmtIds.contains name = false) ∧
      (statements.filterMap StmtDesc.id).Nodup := by
  refine foldlM_ok_iff (I := fun done c => SameDecls b c ∧ ∀ name, c.stmtIds.contains name = true ↔
    name ∈ done.filterMap StmtDesc.id ∨ b.stmtIds.contains name = true)
    (fun {done sd c} ⟨hdecls, hknown⟩ => ?_) (fun ⟨hdecls, hknown⟩ hadd => hdecls.addStmt hknown hadd)
    ⟨⟨rfl, rfl, rfl⟩, by simp⟩
  have hresolve : (∃ r, c.resolve sd.kind = .ok r) ↔ ∃ r, b.resolve sd.kind = .ok r :=
    ⟨fun ⟨_, hr⟩ => hdecls.symm.resolve hr, fun ⟨_, hr⟩ => hdecls.resolve hr⟩
  simp only [addStmt_ok_iff, hresolve, and_assoc, ← forall_and, ← Bool.not_eq_true, hknown, not_or,
    and_comm]

theorem foldlM_addStmt_names {statements : List StmtDesc}
    (h : statements.foldlM Builder.addStmt b = .ok c) : SameDecls b c ∧
      ∀ name, c.stmtIds.contains name = true ↔
        name ∈ statements.filterMap StmtDesc.id ∨ b.stmtIds.contains name = true :=
  foldlM_result (I := fun done c => SameDecls b c ∧ ∀ name, c.stmtIds.contains name = true ↔
      name ∈ done.filterMap StmtDesc.id ∨ b.stmtIds.contains name = true) ⟨⟨rfl, rfl, rfl⟩, by simp⟩
    (fun _ _ _ _ _ _ ⟨hdecls, hknown⟩ hadd => hdecls.addStmt hknown hadd) h

/-- Statements are accepted in any order. -/
theorem addStmts_perm {statements l : List StmtDesc} (hperm : l.Perm statements)
    (h : statements.foldlM Builder.addStmt b = .ok c) :
    ∃ c', l.foldlM Builder.addStmt b = .ok c' ∧ SameNames c c' := by
  have hids := hperm.filterMap StmtDesc.id
  obtain ⟨hall, hdistinct⟩ := foldlM_addStmt_ok_iff.mp ⟨c, h⟩
  obtain ⟨c', hc'⟩ : ∃ c', l.foldlM Builder.addStmt b = .ok c' :=
    foldlM_addStmt_ok_iff.mpr ⟨fun sd hsd => hall sd (hperm.mem_iff.mp hsd), hids.nodup_iff.mpr hdistinct⟩
  obtain ⟨hdecls, hknown⟩ := foldlM_addStmt_names h
  obtain ⟨hdecls', hknown'⟩ := foldlM_addStmt_names hc'
  refine ⟨c', hc', hdecls.symm.trans hdecls', fun name => ?_⟩
  rw [Bool.eq_iff_iff, hknown, hknown', hids.mem_iff]

/-! ### Flows and seeds -/

theorem SameNames.symm (hs : SameNames b b') : SameNames b' b :=
  ⟨hs.toSameDecls.symm, fun name => (hs.stmts name).symm⟩

theorem SameNames.stmt (hs : SameNames b b') {name : String} {st : NodeId} (h : b.stmt name = .ok st) :
    ∃ st', b'.stmt name = .ok st' := by
  have hknown : b'.stmtIds.contains name = true := by
    rw [hs.stmts, Std.TreeMap.contains_eq_isSome_getElem?, stmt_spec h]
    rfl
  rw [Std.TreeMap.contains_eq_isSome_getElem?, Option.isSome_iff_exists] at hknown
  obtain ⟨st', hst'⟩ := hknown
  exact ⟨st', by rw [Builder.stmt, hst']⟩

theorem SameNames.objects (hs : SameNames b b') {names : List String} {ids : List NodeId}
    (h : b.objects names = .ok (ids, c)) :
    ∃ ids' c', b'.objects names = .ok (ids', c') ∧ SameNames c c' := by
  induction names generalizing b b' ids with
  | nil =>
    cases h
    exact ⟨[], b', rfl, hs⟩
  | cons name names ih =>
    simp only [Builder.objects, bind_eq_ok, pure_eq_ok] at h
    obtain ⟨⟨id, b₁⟩, hid, ⟨rest, b₂⟩, hrest, h⟩ := h
    cases h
    obtain ⟨⟨id', b₁'⟩, hid'⟩ := hs.object hid
    obtain ⟨rest', c', hrest', hs'⟩ :=
      ih (((sameNames_object hid).symm.trans hs).trans (sameNames_object hid')) hrest
    exact ⟨id' :: rest', c', by simp only [Builder.objects, hid', ok_bind, hrest']; rfl, hs'⟩

theorem SameNames.addFlow (hs : SameNames b b') {f : FlowDesc} (h : b.addFlow f = .ok c) :
    ∃ c', b'.addFlow f = .ok c' ∧ SameNames c c' := by
  simp only [Builder.addFlow, bind_eq_ok, pure_eq_ok] at h
  obtain ⟨src, hsrc, dst, hdst, ⟨objs, b₁⟩, hobjs, h⟩ := h
  cases h
  obtain ⟨src', hsrc'⟩ := hs.stmt hsrc
  obtain ⟨dst', hdst'⟩ := hs.stmt hdst
  obtain ⟨objs', b₁', hobjs', hs₁⟩ := hs.objects hobjs
  refine ⟨_, by simp only [Builder.addFlow, hsrc', hdst', hobjs', ok_bind]; rfl, ?_⟩
  exact ⟨⟨hs₁.types, hs₁.valueIds, hs₁.objectIds⟩, hs₁.stmts⟩

theorem SameNames.addSeed (hs : SameNames b b') {sd : SeedDesc} (h : b.addSeed sd = .ok c) :
    ∃ c', b'.addSeed sd = .ok c' ∧ SameNames c c' := by
  simp only [Builder.addSeed, bind_eq_ok, pure_eq_ok] at h
  obtain ⟨v, hv, ⟨objs, b₁⟩, hobjs, h⟩ := h
  cases h
  obtain ⟨objs', b₁', hobjs', hs₁⟩ := hs.objects hobjs
  refine ⟨_, by simp only [Builder.addSeed, hs.value, hv, hobjs', ok_bind]; rfl, ?_⟩
  exact ⟨⟨hs₁.types, hs₁.valueIds, hs₁.objectIds⟩, hs₁.stmts⟩

end Builder

/-- A program is accepted with its statements in any order. -/
theorem Program.build_perm {d : ProgramDesc} {p : Program} (h : Program.build d = .ok p)
    {l : List StmtDesc} (hperm : l.Perm d.statements) :
    ∃ p', Program.build { d with statements := l } = .ok p' := by
  obtain ⟨hids, h⟩ := Program.build_eq_ok.mp h
  simp only [Program.build_eq_ok, Program.assemble, bind_eq_ok, pure_eq_ok] at h ⊢
  obtain ⟨b₁, hb₁, b₂, hb₂, b₃, hb₃, b₄, hb₄, b₅, hb₅, b₆, hb₆, -⟩ := h
  obtain ⟨c₄, hc₄, hs₄⟩ := Builder.addStmts_perm hperm hb₄
  obtain ⟨c₅, hc₅, hs₅⟩ := foldlM_simulates (fun hs hadd => hs.addFlow hadd) hs₄ hb₅
  obtain ⟨c₆, hc₆, -⟩ := foldlM_simulates (fun hs hadd => hs.addSeed hadd) hs₅ hb₆
  exact ⟨_, hids, b₁, hb₁, b₂, hb₂, b₃, hb₃, c₄, hc₄, c₅, hc₅, c₆, hc₆, rfl⟩

end PointsTo
