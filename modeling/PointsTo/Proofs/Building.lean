import PointsTo.Proofs.Naming

/-! What building a program yields.

    `Encodes` says that a builder holds the graph of the part of a description that was read so far:
    every statement with its names resolved, every flow, every seed, and nothing else. Building keeps
    it from the first declaration to the last seed; so the graph of a program is well-formed, and is
    known from the description up to the numbering of its nodes. -/

namespace PointsTo

/-- Where a projection leads, as it is described. -/
def GepOffset.ofDesc : Option Nat → GepOffset
  | some k => .field k
  | none => .variant

/-! ### Resolved names -/

theorem mem_of_resolved {look : String → Option NodeId} {names : List String} {ids : List NodeId}
    (h : List.Forall₂ (fun name id => look name = some id) names ids) {id : NodeId} :
    id ∈ ids ↔ ∃ name ∈ names, look name = some id := by
  induction h with
  | nil => simp
  | cons hlook _ ih =>
    simp only [List.mem_cons, exists_eq_or_imp, hlook, Option.some.injEq, ih]
    rw [eq_comm]

theorem exists_of_resolved {look : String → Option NodeId} {names : List String} {ids : List NodeId}
    (h : List.Forall₂ (fun name id => look name = some id) names ids) {name : String}
    (hname : name ∈ names) : ∃ id, look name = some id ∧ id ∈ ids := by
  induction h with
  | nil => cases hname
  | cons hlook _ ih =>
    rcases List.mem_cons.mp hname with rfl | hname
    · exact ⟨_, hlook, List.mem_cons_self⟩
    · obtain ⟨id, hid, hmem⟩ := ih hname
      exact ⟨id, hid, List.mem_cons_of_mem _ hmem⟩

namespace Builder

/-- The statement is the described one, with names resolved. -/
def Resolves (b : Builder) : StmtKindDesc → StmtNode → Prop
  | .addr obj dst, n => ∃ o v, b.find? (.ofName obj) = some o ∧ b.valueIds[dst]? = some v ∧
      n = ⟨.addr o v, none⟩
  | .copy src dst init, n => ∃ u v, b.valueIds[src]? = some u ∧ b.valueIds[dst]? = some v ∧
      n = ⟨.copy u v init, none⟩
  | .gep base dst offset ty, n => ∃ u v, b.valueIds[base]? = some u ∧ b.valueIds[dst]? = some v ∧
      n = ⟨.gep u v (.ofDesc offset), ty⟩
  | .load ptr dst ty, n => ∃ u v, b.valueIds[ptr]? = some u ∧ b.valueIds[dst]? = some v ∧
      n = ⟨.load u v, ty⟩
  | .store src ptr ty, n => ∃ u v, b.valueIds[src]? = some u ∧ b.valueIds[ptr]? = some v ∧
      n = ⟨.store u v, ty⟩
  | .phi dst operands receiver, n => ∃ v ids, b.valueIds[dst]? = some v ∧
      List.Forall₂ (fun name id => b.valueIds[name]? = some id) operands ids ∧
      n = ⟨.phi v ids, receiver⟩

/-- The statements are the described ones, in the same order. -/
structure HasStmts (statements : List StmtDesc) (b : Builder) : Prop where
  count : statements.length = b.graph.stmts.size
  resolves : ∀ {i : Nat} {sd st}, statements[i]? = some sd → b.graph.stmts[i]? = some st →
    ∃ n, b.graph.stmt st = .ok n ∧ b.Resolves sd.kind n
  ids : ∀ {name : String} {st}, b.stmtIds[name]? = some st ↔
    ∃ (i : Nat) (sd : StmtDesc), statements[i]? = some sd ∧ sd.id = some name ∧
      b.graph.stmts[i]? = some st

/-- The indirect edges are the described flows. -/
structure HasFlows (flows : List FlowDesc) (b : Builder) : Prop where
  described : ∀ {s t l}, b.graph.FlowsTo s t l → ∃ f ∈ flows, b.stmtIds[f.src]? = some s ∧
    b.stmtIds[f.dst]? = some t ∧ ∃ name ∈ f.objs, b.find? (.ofName name) = some l
  present : ∀ f ∈ flows, ∃ s t, b.stmtIds[f.src]? = some s ∧ b.stmtIds[f.dst]? = some t ∧
    ∀ name ∈ f.objs, ∃ l, b.find? (.ofName name) = some l ∧ b.graph.FlowsTo s t l
  ends : ∀ {s t label}, (t, label) ∈ b.graph.indirectSuccessors s → t ∈ b.graph.stmts.toList

/-- Values point to the described objects from the start. -/
structure HasSeeds (seeds : List SeedDesc) (b : Builder) : Prop where
  described : ∀ {v o}, (v, o) ∈ b.graph.seeds.toList → ∃ sd ∈ seeds,
    b.valueIds[sd.value]? = some v ∧ ∃ name ∈ sd.objs, b.find? (.ofName name) = some o
  present : ∀ sd ∈ seeds, ∃ v, b.valueIds[sd.value]? = some v ∧
    ∀ name ∈ sd.objs, ∃ o, b.find? (.ofName name) = some o ∧ (v, o) ∈ b.graph.seeds.toList

/-- The builder holds the types and the graph of a description. -/
structure Encodes (d : ProgramDesc) (b : Builder) : Prop where
  types : b.types = ⟨d.types.toArray⟩
  named : Named d.objects b
  wired : b.graph.Wired
  stmts : HasStmts d.statements b
  flows : HasFlows d.flows b
  seeds : HasSeeds d.seeds b

variable {d : ProgramDesc} {b b' : Builder}

/-! ### What later declarations keep -/

/-- `b'` knows all names that `b` knows. -/
structure Grows (b b' : Builder) : Prop where
  valueIds : ∀ {name : String} {v}, b.valueIds[name]? = some v → b'.valueIds[name]? = some v
  find : ∀ {r id}, b.find? r = some id → b'.find? r = some id
  stmtIds : ∀ {name : String} {st}, b.stmtIds[name]? = some st → b'.stmtIds[name]? = some st

theorem Grows.refl (b : Builder) : b.Grows b := ⟨id, id, id⟩

theorem Grows.trans {b'' : Builder} (h : b.Grows b') (h' : b'.Grows b'') : b.Grows b'' :=
  ⟨fun hv => h'.valueIds (h.valueIds hv), fun hf => h'.find (h.find hf),
    fun hst => h'.stmtIds (h.stmtIds hst)⟩

theorem Resolves.mono (hg : b.Grows b') {k : StmtKindDesc} {n : StmtNode} (hr : b.Resolves k n) :
    b'.Resolves k n := by
  cases k with
  | addr obj dst =>
    obtain ⟨o, v, ho, hv, hn⟩ := hr
    exact ⟨o, v, hg.find ho, hg.valueIds hv, hn⟩
  | copy src dst init | gep base dst offset ty | load ptr dst ty | store src ptr ty =>
    obtain ⟨u, v, hu, hv, hn⟩ := hr
    exact ⟨u, v, hg.valueIds hu, hg.valueIds hv, hn⟩
  | phi dst operands receiver =>
    obtain ⟨v, ids, hv, hids, hn⟩ := hr
    exact ⟨v, ids, hg.valueIds hv, hids.imp fun _ _ h => hg.valueIds h, hn⟩

theorem HasStmts.mono {statements : List StmtDesc} (h : HasStmts statements b) (hg : b.Grows b')
    (hnodes : ∀ {id : NodeId} {n}, b.graph.nodes[id]? = some n → b'.graph.nodes[id]? = some n)
    (hstmts : b'.graph.stmts = b.graph.stmts) (hids : b'.stmtIds = b.stmtIds) :
    HasStmts statements b' := by
  refine ⟨hstmts ▸ h.count, ?_, ?_⟩
  · intro i sd st hsd hst
    rw [hstmts] at hst
    obtain ⟨n, hn, hr⟩ := h.resolves hsd hst
    exact ⟨n, Graph.stmt_eq_ok.mpr (hnodes (Graph.stmt_eq_ok.mp hn)), hr.mono hg⟩
  · intro name st
    rw [hids, hstmts]
    exact h.ids

theorem HasFlows.mono {flows : List FlowDesc} (h : HasFlows flows b) (hg : b.Grows b')
    (hind : ∀ s, b'.graph.indirectSuccessors s = b.graph.indirectSuccessors s)
    (hstmts : ∀ st ∈ b.graph.stmts.toList, st ∈ b'.graph.stmts.toList) : HasFlows flows b' := by
  have hflows : ∀ {s t l}, b'.graph.FlowsTo s t l ↔ b.graph.FlowsTo s t l := by
    simp only [Graph.FlowsTo, hind, implies_true]
  refine ⟨?_, ?_, ?_⟩
  · intro s t l hst
    obtain ⟨f, hf, hs, ht, name, hname, hl⟩ := h.described (hflows.mp hst)
    exact ⟨f, hf, hg.stmtIds hs, hg.stmtIds ht, name, hname, hg.find hl⟩
  · intro f hf
    obtain ⟨s, t, hs, ht, hobjs⟩ := h.present f hf
    refine ⟨s, t, hg.stmtIds hs, hg.stmtIds ht, fun name hname => ?_⟩
    obtain ⟨l, hl, hflow⟩ := hobjs name hname
    exact ⟨l, hg.find hl, hflows.mpr hflow⟩
  · intro s t label hmem
    exact hstmts t (h.ends (hind s ▸ hmem))

theorem HasSeeds.mono {seeds : List SeedDesc} (h : HasSeeds seeds b) (hg : b.Grows b')
    (hseeds : b'.graph.seeds = b.graph.seeds) : HasSeeds seeds b' := by
  refine ⟨?_, ?_⟩
  · intro v o hmem
    rw [hseeds] at hmem
    obtain ⟨sd, hsd, hv, name, hname, ho⟩ := h.described hmem
    exact ⟨sd, hsd, hg.valueIds hv, name, hname, hg.find ho⟩
  · intro sd hsd
    obtain ⟨v, hv, hobjs⟩ := h.present sd hsd
    refine ⟨v, hg.valueIds hv, fun name hname => ?_⟩
    obtain ⟨o, ho, hmem⟩ := hobjs name hname
    exact ⟨o, hg.find ho, hseeds ▸ hmem⟩

/-! ### Declarations -/

theorem encodes_empty (types : List TypeDesc) : Encodes { types } { types := ⟨types.toArray⟩ } := by
  have hind : ∀ s, Graph.indirectSuccessors ∅ s = [] := fun _ => rfl
  refine ⟨rfl, named_empty _, Graph.wired_empty, ⟨rfl, ?_, by simp⟩, ⟨?_, ?_, ?_⟩, ⟨?_, ?_⟩⟩
  · intro i sd st hsd
    simp at hsd
  · rintro s t l ⟨label, hmem, -⟩
    rw [hind] at hmem
    cases hmem
  · intro f hf
    cases hf
  · intro s t label hmem
    rw [hind] at hmem
    cases hmem
  · intro v o hmem
    cases hmem
  · intro sd hsd
    cases hsd

/-- What declaring values and objects keeps. -/
theorem Encodes.declare {objects : List ObjectDesc} {values : List String} (he : b.Encodes d) (hg : b.Grows b')
    (hnamed : Named objects b') (hkeep : Graph.KeepsWiring b.graph b'.graph)
    (hedges : b'.graph.edges = b.graph.edges) (hseeds : b'.graph.seeds = b.graph.seeds)
    (hids : b'.stmtIds = b.stmtIds) (htypes : b'.types = b.types) :
    b'.Encodes { d with objects, values } where
  types := htypes.trans he.types
  named := hnamed
  wired := he.wired.keep hkeep
  stmts := he.stmts.mono hg hkeep.nodes hkeep.stmts hids
  flows := he.flows.mono hg
    (fun s => by rw [Graph.indirectSuccessors, Graph.indirectSuccessors, hedges])
    (fun st hst => hkeep.stmts ▸ hst)
  seeds := he.seeds.mono hg hseeds

theorem Encodes.addValue {name : String} (he : b.Encodes d) (h : b.addValue name = .ok b') :
    b'.Encodes { d with values := d.values ++ [name] } := by
  have hnamed := he.named.addValue h
  obtain ⟨hnew, rfl⟩ := addValue_spec h
  refine he.declare ⟨?_, fun {r id} hr => ?_, fun hst => hst⟩ hnamed
    ⟨?_, rfl, rfl, rfl, he.wired.indexed, Iff.rfl⟩ rfl rfl rfl rfl
  · intro name' v hv
    rw [getElem?_insert_name, if_neg, hv]
    rintro rfl
    rw [hnew] at hv
    cases hv
  · match r with
    | .declared _ | .special .blackHole | .special .constant => exact hr
  · intro id n hn
    show (b.graph.nodes.push _)[id]? = some n
    rw [Array.getElem?_push, if_neg (Nat.ne_of_lt (Graph.lt_size_of_getElem? hn)), hn]

theorem AddsRoot.grows {m : Memory} {kind : ObjKind} (ha : AddsRoot b b' m kind)
    (hfirst : b.find? (ObjNode.mk kind b.graph.mems.size m.name).ref = none) : b.Grows b' where
  valueIds hv := ha.valueIds ▸ hv
  find := by
    intro r id hr
    rw [ha.find, if_neg, hr]
    rintro rfl
    rw [hfirst] at hr
    cases hr
  stmtIds hst := ha.stmtIds ▸ hst

theorem Encodes.addRoot {objects : List ObjectDesc} {m : Memory} {kind : ObjKind} (he : b.Encodes d)
    (ha : AddsRoot b b' m kind)
    (hfirst : b.find? (ObjNode.mk kind b.graph.mems.size m.name).ref = none)
    (hnamed : Named objects b') : b'.Encodes { d with objects } := by
  have hindexed : b'.graph.edges.Indexed := ha.edges ▸ he.wired.indexed
  refine he.declare (ha.grows hfirst) hnamed
    ⟨ha.keeps, ha.stmts, ha.readers, ha.definers, hindexed, ?_⟩ ha.edges ha.seeds ha.stmtIds ha.types
  intro s u
  rw [Graph.directSuccessors, Graph.directSuccessors, ha.edges]

theorem Encodes.addObject {o : ObjectDesc} (he : b.Encodes d) (h : b.addObject o = .ok b') :
    b'.Encodes { d with objects := d.objects ++ [o] } := by
  obtain ⟨hfirst, ha⟩ := addObject_spec h
  rw [← ref_of_declared o b.graph.mems.size] at hfirst
  exact he.addRoot ha hfirst (he.named.addObject h)

/-! ### Resolving names -/

theorem value_spec {name : String} {v : NodeId} (h : b.value name = .ok v) :
    b.valueIds[name]? = some v := by
  unfold value at h
  split at h
  · rename_i id hid
    injection h with h
    exact h ▸ hid
  · cases h

theorem mapM_value_spec {names : List String} {ids : List NodeId}
    (h : names.mapM b.value = .ok ids) :
    List.Forall₂ (fun name id => b.valueIds[name]? = some id) names ids := by
  induction names generalizing ids with
  | nil =>
    injection h with h
    exact h ▸ .nil
  | cons name names ih =>
    simp only [List.mapM_cons, bind_eq_ok] at h
    obtain ⟨v, hv, vs, hvs, h⟩ := h
    injection h with h
    exact h ▸ .cons (value_spec hv) (ih hvs)

theorem Encodes.object {name : String} {id : NodeId} (he : b.Encodes d)
    (h : b.object name = .ok (id, b')) :
    b'.Encodes d ∧ b.Grows b' ∧ b'.find? (.ofName name) = some id := by
  obtain ⟨hfind, rfl | ⟨which, -, hfirst, ha⟩⟩ := object_spec h
  · exact ⟨he, .refl _, hfind⟩
  · exact ⟨he.addRoot ha hfirst (he.named.special hfirst ha), ha.grows hfirst, hfind⟩

theorem Encodes.objects {names : List String} {ids : List NodeId} (he : b.Encodes d)
    (h : b.objects names = .ok (ids, b')) : b'.Encodes d ∧ b.Grows b' ∧
      List.Forall₂ (fun name id => b'.find? (.ofName name) = some id) names ids := by
  induction names generalizing b ids with
  | nil =>
    simp only [Builder.objects, Except.ok.injEq, Prod.mk.injEq] at h
    obtain ⟨rfl, rfl⟩ := h
    exact ⟨he, .refl _, .nil⟩
  | cons name names ih =>
    simp only [Builder.objects, bind_eq_ok] at h
    obtain ⟨⟨id, b₁⟩, hid, ⟨ids, b₂⟩, hids, h⟩ := h
    simp only [pure_eq_ok, Except.ok.injEq, Prod.mk.injEq] at h
    obtain ⟨rfl, rfl⟩ := h
    obtain ⟨he₁, hg₁, hfind⟩ := he.object hid
    obtain ⟨he₂, hg₂, hfinds⟩ := ih he₁ hids
    exact ⟨he₂, hg₁.trans hg₂, .cons (hg₂.find hfind) hfinds⟩

theorem Encodes.resolve {k : StmtKindDesc} {kind : StmtKind} {ty : Option TypeId} (he : b.Encodes d)
    (h : b.resolve k = .ok ((kind, ty), b')) : b'.Encodes d ∧ b'.Resolves k ⟨kind, ty⟩ := by
  cases k with
  | addr obj dst =>
    simp only [Builder.resolve, bind_eq_ok] at h
    obtain ⟨⟨o, b₁⟩, ho, v, hv, h⟩ := h
    simp only [pure_eq_ok, Except.ok.injEq, Prod.mk.injEq] at h
    obtain ⟨⟨rfl, rfl⟩, rfl⟩ := h
    obtain ⟨he₁, -, hfind⟩ := he.object ho
    exact ⟨he₁, o, v, hfind, value_spec hv, rfl⟩
  | copy src dst init =>
    simp only [Builder.resolve, bind_eq_ok] at h
    obtain ⟨u, hu, v, hv, h⟩ := h
    simp only [pure_eq_ok, Except.ok.injEq, Prod.mk.injEq] at h
    obtain ⟨⟨rfl, rfl⟩, rfl⟩ := h
    exact ⟨he, u, v, value_spec hu, value_spec hv, rfl⟩
  | gep base dst offset ty' =>
    simp only [Builder.resolve, bind_eq_ok] at h
    obtain ⟨u, hu, v, hv, -, -, h⟩ := h
    simp only [pure_eq_ok, Except.ok.injEq, Prod.mk.injEq] at h
    obtain ⟨⟨rfl, rfl⟩, rfl⟩ := h
    exact ⟨he, u, v, value_spec hu, value_spec hv, by cases offset <;> rfl⟩
  | load ptr dst ty' =>
    simp only [Builder.resolve, bind_eq_ok] at h
    obtain ⟨u, hu, v, hv, -, -, h⟩ := h
    simp only [pure_eq_ok, Except.ok.injEq, Prod.mk.injEq] at h
    obtain ⟨⟨rfl, rfl⟩, rfl⟩ := h
    exact ⟨he, u, v, value_spec hu, value_spec hv, rfl⟩
  | store src ptr ty' =>
    simp only [Builder.resolve, bind_eq_ok] at h
    obtain ⟨u, hu, v, hv, -, -, h⟩ := h
    simp only [pure_eq_ok, Except.ok.injEq, Prod.mk.injEq] at h
    obtain ⟨⟨rfl, rfl⟩, rfl⟩ := h
    exact ⟨he, u, v, value_spec hu, value_spec hv, rfl⟩
  | phi dst operands receiver =>
    simp only [Builder.resolve, bind_eq_ok] at h
    obtain ⟨ids, hids, h⟩ := h
    by_cases hmissing : (receiver.isSome && ids.isEmpty) = true
    · rw [if_pos hmissing] at h
      cases h
    rw [if_neg hmissing] at h
    simp only [bind_eq_ok] at h
    obtain ⟨v, hv, -, -, h⟩ := h
    simp only [pure_eq_ok, Except.ok.injEq, Prod.mk.injEq] at h
    obtain ⟨⟨rfl, rfl⟩, rfl⟩ := h
    exact ⟨he, v, ids, value_spec hv, mapM_value_spec hids, rfl⟩

/-! ### Statements, flows and seeds -/

theorem Encodes.pushStmt {sd : StmtDesc} {kind : StmtKind} {ty : Option TypeId} (he : b.Encodes d)
    (hr : b.Resolves sd.kind ⟨kind, ty⟩) (ha : Graph.AddsStmt b.graph b'.graph kind ty)
    (htypes : b'.types = b.types) (hvalues : b'.valueIds = b.valueIds)
    (hobjects : b'.objectIds = b.objectIds)
    (hnew : ∀ name, sd.id = some name → b.stmtIds[name]? = none)
    (hids : ∀ name : String, b'.stmtIds[name]? =
      if sd.id = some name then some b.graph.nodes.size else b.stmtIds[name]?) :
    b'.Encodes { d with statements := d.statements ++ [sd] } := by
  have hfind : ∀ r, b'.find? r = b.find? r := find?_congr hobjects ha.blackHole ha.constant
  have hold : ∀ {name : String} {st : NodeId}, b.stmtIds[name]? = some st →
      b'.stmtIds[name]? = some st := by
    intro name st hst
    rw [hids, if_neg, hst]
    intro hname
    rw [hnew name hname] at hst
    cases hst
  have hg : b.Grows b' := ⟨fun hv => hvalues ▸ hv, fun hr => (hfind _).trans hr, hold⟩
  -- A statement stands in the description where it stands in the graph.
  have hplace : ∀ {i : Nat} {sd' : StmtDesc} {st : NodeId},
      ((d.statements ++ [sd])[i]? = some sd' ∧ b'.graph.stmts[i]? = some st) ↔
        (d.statements[i]? = some sd' ∧ b.graph.stmts[i]? = some st) ∨
        (i = d.statements.length ∧ sd' = sd ∧ st = b.graph.nodes.size) := by
    intro i sd' st
    rw [ha.stmts, Array.getElem?_push, ← he.stmts.count]
    rcases Nat.lt_trichotomy i d.statements.length with hi | rfl | hi
    · rw [List.getElem?_append_left hi, if_neg (Nat.ne_of_lt hi)]
      simp [Nat.ne_of_lt hi]
    · simp [eq_comm]
    · rw [if_neg (Nat.ne_of_gt hi), List.getElem?_eq_none (by simp; omega),
        List.getElem?_eq_none (Nat.le_of_lt hi)]
      simp [Nat.ne_of_gt hi]
  refine ⟨htypes.trans he.types, he.named.addStmt hvalues hobjects ha, he.wired.addStmt ha,
    ⟨?_, ?_, ?_⟩, he.flows.mono hg ha.indirect fun st hst => ha.mem_stmts.mpr (Or.inr hst),
    he.seeds.mono hg ha.seeds⟩
  · rw [ha.stmts, Array.size_push, ← he.stmts.count, List.length_append, List.length_singleton]
  · intro i sd' st hsd hst
    rcases hplace.mp ⟨hsd, hst⟩ with ⟨hsd, hst⟩ | ⟨-, rfl, rfl⟩
    · obtain ⟨n, hn, hr⟩ := he.stmts.resolves hsd hst
      exact ⟨n, ha.stmt_iff.mpr (Or.inr hn), hr.mono hg⟩
    · exact ⟨_, ha.stmt_self, hr.mono hg⟩
  · intro name st
    rw [hids]
    constructor
    · intro h
      split at h
      · rename_i hname
        injection h with h
        obtain ⟨hsd, hst⟩ := hplace.mpr (Or.inr ⟨rfl, rfl, h.symm⟩)
        exact ⟨_, sd, hsd, hname, hst⟩
      · obtain ⟨i, sd', hsd, hname, hst⟩ := he.stmts.ids.mp h
        obtain ⟨hsd, hst⟩ := hplace.mpr (Or.inl ⟨hsd, hst⟩)
        exact ⟨i, sd', hsd, hname, hst⟩
    · rintro ⟨i, sd', hsd, hname, hst⟩
      rcases hplace.mp ⟨hsd, hst⟩ with ⟨hsd, hst⟩ | ⟨-, rfl, rfl⟩
      · have h := hold (he.stmts.ids.mpr ⟨i, sd', hsd, hname, hst⟩)
        rwa [hids] at h
      · rw [if_pos hname]

/-- Adding a statement: its names are resolved, it comes into the graph, and its id becomes known. -/
theorem addStmt_spec {sd : StmtDesc} (h : b.addStmt sd = .ok b') : ∃ kind ty b₁,
    b.resolve sd.kind = .ok ((kind, ty), b₁) ∧ b'.graph = (b₁.graph.addStmt kind ty).2 ∧
    b'.types = b₁.types ∧ b'.valueIds = b₁.valueIds ∧ b'.objectIds = b₁.objectIds ∧
    (∀ name, sd.id = some name → b₁.stmtIds[name]? = none) ∧
    ∀ name : String, b'.stmtIds[name]? =
      if sd.id = some name then some b₁.graph.nodes.size else b₁.stmtIds[name]? := by
  simp only [Builder.addStmt, bind_eq_ok] at h
  obtain ⟨⟨⟨kind, ty⟩, b₁⟩, hresolve, h⟩ := h
  refine ⟨kind, ty, b₁, hresolve, ?_⟩
  cases hname : sd.id with
  | none =>
    simp only [hname, pure_eq_ok, Except.ok.injEq] at h
    subst h
    exact ⟨rfl, rfl, rfl, rfl, by simp, by simp⟩
  | some name =>
    simp only [hname] at h
    by_cases hdup : b₁.stmtIds.contains name = true
    · rw [if_pos hdup] at h
      cases h
    rw [if_neg hdup] at h
    simp only [pure_eq_ok, Except.ok.injEq] at h
    subst h
    refine ⟨rfl, rfl, rfl, rfl, ?_, fun name' => ?_⟩
    · rintro _ ⟨⟩
      simpa using hdup
    · rw [getElem?_insert_name, Graph.addStmt_fst]
      simp only [Option.some.injEq, eq_comm]

theorem Encodes.addStmt {sd : StmtDesc} (he : b.Encodes d) (h : b.addStmt sd = .ok b') :
    b'.Encodes { d with statements := d.statements ++ [sd] } := by
  obtain ⟨kind, ty, b₁, hresolve, hgraph, htypes, hvalues, hobjects, hnew, hids⟩ := addStmt_spec h
  obtain ⟨he₁, hr⟩ := he.resolve hresolve
  have ha := Graph.addStmt_spec he₁.wired.indexed kind ty
  rw [← hgraph] at ha
  exact he₁.pushStmt hr ha htypes hvalues hobjects hnew hids

theorem stmt_spec {name : String} {st : NodeId} (h : b.stmt name = .ok st) :
    b.stmtIds[name]? = some st := by
  unfold stmt at h
  split at h
  · rename_i id hid
    injection h with h
    exact h ▸ hid
  · cases h

theorem Encodes.addFlow {f : FlowDesc} (he : b.Encodes d) (h : b.addFlow f = .ok b') :
    b'.Encodes { d with flows := d.flows ++ [f] } := by
  simp only [Builder.addFlow, bind_eq_ok] at h
  obtain ⟨src, hsrc, dst, hdst, ⟨objs, b₁⟩, hobjs, h⟩ := h
  injection h with h
  subst h
  obtain ⟨he₁, hg₁, hids⟩ := he.objects hobjs
  replace hsrc := hg₁.stmtIds (stmt_spec hsrc)
  replace hdst := hg₁.stmtIds (stmt_spec hdst)
  obtain ⟨E, hE, ha⟩ := Graph.linkIndirect_spec he₁.wired.indexed src dst objs
  simp only [hE]
  have hkeep : ∀ r, find? { b₁ with graph := { b₁.graph with edges := E } } r = b₁.find? r :=
    find?_congr rfl rfl rfl
  have hg : b₁.Grows { b₁ with graph := { b₁.graph with edges := E } } :=
    ⟨fun hv => hv, fun hr => (hkeep _).trans hr, fun hst => hst⟩
  refine ⟨he₁.types, he₁.named.keep he₁.named.values hkeep Iff.rfl rfl rfl,
    he₁.wired.keep ⟨fun hn => hn, rfl, rfl, rfl, ha.indexed, ha.direct⟩,
    he₁.stmts.mono hg (fun hn => hn) rfl rfl, ⟨?_, ?_, ?_⟩, he₁.seeds.mono hg rfl⟩
  · intro s t l hst
    rcases ha.flows.mp hst with ⟨rfl, rfl, hl⟩ | hst
    · obtain ⟨name, hname, hfind⟩ := (mem_of_resolved hids).mp hl
      exact ⟨f, List.mem_append_right _ (List.mem_singleton_self f), hsrc, hdst, name, hname, hg.find hfind⟩
    · obtain ⟨f', hf', hs, ht, name, hname, hl⟩ := he₁.flows.described hst
      exact ⟨f', List.mem_append_left _ hf', hs, ht, name, hname, hg.find hl⟩
  · intro f' hf'
    rcases List.mem_append.mp hf' with hf' | hf'
    · obtain ⟨s, t, hs, ht, hobjs⟩ := he₁.flows.present f' hf'
      refine ⟨s, t, hs, ht, fun name hname => ?_⟩
      obtain ⟨l, hl, hflow⟩ := hobjs name hname
      exact ⟨l, hg.find hl, ha.flows.mpr (Or.inr hflow)⟩
    · rw [List.mem_singleton.mp hf']
      refine ⟨src, dst, hsrc, hdst, fun name hname => ?_⟩
      obtain ⟨l, hfind, hl⟩ := exists_of_resolved hids hname
      exact ⟨l, hg.find hfind, ha.flows.mpr (Or.inl ⟨rfl, rfl, hl⟩)⟩
  · intro s t label hmem
    rcases ha.ends hmem with rfl | ⟨label', hmem⟩
    · obtain ⟨i, -, -, -, hst⟩ := he₁.stmts.ids.mp hdst
      exact Array.mem_toList_iff.mpr (Array.mem_of_getElem? hst)
    · exact he₁.flows.ends hmem

theorem foldl_seed (v : NodeId) (objs : List NodeId) (g : Graph) :
    ∃ S, objs.foldl (·.seed v ·) g = { g with seeds := S } ∧
      S.toList = g.seeds.toList ++ objs.map fun o => (v, o) := by
  induction objs generalizing g with
  | nil => exact ⟨g.seeds, rfl, by simp⟩
  | cons o objs ih =>
    obtain ⟨S, hS, hlist⟩ := ih (g.seed v o)
    exact ⟨S, hS, by rw [hlist, Graph.seed, Array.toList_push, List.append_assoc]; rfl⟩

theorem Encodes.addSeed {sd : SeedDesc} (he : b.Encodes d) (h : b.addSeed sd = .ok b') :
    b'.Encodes { d with seeds := d.seeds ++ [sd] } := by
  simp only [Builder.addSeed, bind_eq_ok] at h
  obtain ⟨v, hv, ⟨objs, b₁⟩, hobjs, h⟩ := h
  injection h with h
  subst h
  obtain ⟨he₁, hg₁, hids⟩ := he.objects hobjs
  replace hv := hg₁.valueIds (value_spec hv)
  obtain ⟨S, hS, hlist⟩ := foldl_seed v objs b₁.graph
  simp only [hS]
  have hmemS : ∀ x, x ∈ S.toList ↔ x ∈ b₁.graph.seeds.toList ∨ ∃ o ∈ objs, (v, o) = x := by
    simp only [hlist, List.mem_append, List.mem_map, implies_true]
  have hkeep : ∀ r, find? { b₁ with graph := { b₁.graph with seeds := S } } r = b₁.find? r :=
    find?_congr rfl rfl rfl
  have hg : b₁.Grows { b₁ with graph := { b₁.graph with seeds := S } } :=
    ⟨fun hv => hv, fun hr => (hkeep _).trans hr, fun hst => hst⟩
  refine ⟨he₁.types, he₁.named.keep he₁.named.values hkeep Iff.rfl rfl rfl,
    he₁.wired.keep ⟨fun hn => hn, rfl, rfl, rfl, he₁.wired.indexed, Iff.rfl⟩,
    he₁.stmts.mono hg (fun hn => hn) rfl rfl, he₁.flows.mono hg (fun _ => rfl) (fun _ hst => hst), ⟨?_, ?_⟩⟩
  · intro w o hmem
    rcases (hmemS (w, o)).mp hmem with hmem | ⟨o', ho', heq⟩
    · obtain ⟨sd', hsd, hv, name, hname, ho⟩ := he₁.seeds.described hmem
      exact ⟨sd', List.mem_append_left _ hsd, hv, name, hname, hg.find ho⟩
    · obtain ⟨rfl, rfl⟩ := Prod.mk.inj heq
      obtain ⟨name, hname, hfind⟩ := (mem_of_resolved hids).mp ho'
      exact ⟨sd, List.mem_append_right _ (List.mem_singleton_self sd), hv, name, hname, hg.find hfind⟩
  · intro sd' hsd
    rcases List.mem_append.mp hsd with hsd | hsd
    · obtain ⟨w, hw, hobjs⟩ := he₁.seeds.present sd' hsd
      refine ⟨w, hw, fun name hname => ?_⟩
      obtain ⟨o, ho, hmem⟩ := hobjs name hname
      exact ⟨o, hg.find ho, (hmemS _).mpr (Or.inl hmem)⟩
    · rw [List.mem_singleton.mp hsd]
      refine ⟨v, hv, fun name hname => ?_⟩
      obtain ⟨o, hfind, ho⟩ := exists_of_resolved hids hname
      exact ⟨o, hg.find hfind, (hmemS _).mpr (Or.inr ⟨o, ho, rfl⟩)⟩

/-! ### Well-formedness -/

/-- The operands of a resolved statement are values. -/
theorem Resolves.values {k : StmtKindDesc} {n : StmtNode} (hr : b.Resolves k n) {v : NodeId}
    (hv : v ∈ n.kind.uses ∨ n.kind.target? = some v) : ∃ name : String, b.valueIds[name]? = some v := by
  cases k with
  | addr obj dst =>
    obtain ⟨o, w, -, hw, rfl⟩ := hr
    simp only [StmtKind.uses, StmtKind.target?, List.not_mem_nil, Option.some.injEq, false_or] at hv
    exact ⟨dst, hv ▸ hw⟩
  | copy x y _ | gep x y _ _ | load x y _ =>
    obtain ⟨u, w, hu, hw, rfl⟩ := hr
    simp only [StmtKind.uses, StmtKind.target?, List.mem_singleton, Option.some.injEq] at hv
    rcases hv with rfl | rfl
    · exact ⟨x, hu⟩
    · exact ⟨y, hw⟩
  | store src ptr ty =>
    obtain ⟨u, w, hu, hw, rfl⟩ := hr
    simp only [StmtKind.uses, StmtKind.target?, List.mem_cons, List.not_mem_nil, or_false,
      reduceCtorEq] at hv
    rcases hv with rfl | rfl
    · exact ⟨src, hu⟩
    · exact ⟨ptr, hw⟩
  | phi dst operands receiver =>
    obtain ⟨w, ids, hw, hids, rfl⟩ := hr
    simp only [StmtKind.uses, StmtKind.target?, Option.some.injEq] at hv
    rcases hv with hv | rfl
    · obtain ⟨name, -, hname⟩ := (mem_of_resolved hids).mp hv
      exact ⟨name, hname⟩
    · exact ⟨dst, hw⟩

/-- Every statement of the graph stands where the description has one that it resolves. -/
theorem Encodes.exists_desc (he : b.Encodes d) {st : NodeId} {n : StmtNode}
    (hst : st ∈ b.graph.stmts.toList) (hn : b.graph.stmt st = .ok n) :
    ∃ (i : Nat) (sd : StmtDesc), d.statements[i]? = some sd ∧ b.graph.stmts[i]? = some st ∧
      b.Resolves sd.kind n := by
  obtain ⟨i, hi⟩ := Array.mem_iff_getElem?.mp (Array.mem_toList_iff.mp hst)
  have hlt : i < d.statements.length := he.stmts.count ▸ (Array.getElem?_eq_some_iff.mp hi).1
  obtain ⟨n', hn', hr⟩ := he.stmts.resolves (List.getElem?_eq_getElem hlt) hi
  rw [hn] at hn'
  injection hn' with hn'
  exact ⟨i, _, List.getElem?_eq_getElem hlt, hi, hn' ▸ hr⟩

theorem Encodes.wellFormed (he : b.Encodes d) : b.graph.WellFormed := by
  have hvalue : ∀ {name : String} {v : NodeId}, b.valueIds[name]? = some v → b.graph.isValue v = true :=
    fun hv => Graph.isValue_iff.mpr ⟨_, he.named.values.mp hv⟩
  have hobject : ∀ {r : ObjRef} {o : NodeId}, b.find? r = some o → b.graph.HasObj o := by
    intro r o ho
    obtain ⟨ob, hob, -⟩ := he.named.refs.mp ho
    exact ⟨ob, hob⟩
  exact {
    stmt := he.wired.stmt
    uses := by
      intro st n v hst hn hv
      obtain ⟨-, sd, -, -, hr⟩ := he.exists_desc hst hn
      obtain ⟨name, hname⟩ := hr.values (Or.inl hv)
      exact ⟨hvalue hname, he.wired.users.mpr ⟨hst, n, hn, hv⟩⟩
    target := by
      intro st n v hst hn hv
      obtain ⟨-, sd, -, -, hr⟩ := he.exists_desc hst hn
      obtain ⟨name, hname⟩ := hr.values (Or.inr hv)
      exact ⟨hvalue hname, fun u hu =>
        he.wired.direct.mpr ⟨v, he.wired.defs.mpr ⟨hst, n, hn, hv⟩, hu⟩⟩
    addr := by
      intro st n obj dst hst hn hk
      obtain ⟨-, sd, -, -, hr⟩ := he.exists_desc hst hn
      cases hkind : sd.kind with
      | addr obj' dst' =>
        rw [hkind] at hr
        obtain ⟨o, w, ho, -, rfl⟩ := hr
        injection hk with hobj
        exact hobj ▸ hobject ho
      | copy _ _ _ | gep _ _ _ _ | load _ _ _ | store _ _ _ | phi _ _ _ =>
        rw [hkind] at hr
        obtain ⟨u, w, -, -, rfl⟩ := hr
        cases hk
    users := fun hu => (he.wired.users.mp hu).1
    direct := by
      intro st u hu
      obtain ⟨v, -, hu⟩ := he.wired.direct.mp hu
      exact (he.wired.users.mp hu).1
    indirect := by
      intro st t label hmem
      refine ⟨he.flows.ends hmem, fun l hl => ?_⟩
      obtain ⟨_, -, -, -, _, -, hfind⟩ := he.flows.described ⟨label, hmem, hl⟩
      exact hobject hfind
    seeds := by
      intro v o hmem
      obtain ⟨_, -, hv, _, -, ho⟩ := he.seeds.described hmem
      exact ⟨hvalue hv, hobject ho⟩
    objects := he.named.objects
    objects_nodup := he.named.objects_nodup
    whole := he.named.whole
    mem := he.named.mem
    memInj := he.named.memInj
    foreign := he.named.fieldInsensitive_of_special }

end Builder

/-! ### Types -/

theorem TypeTable.add_eq (t : TypeTable) (d : TypeDesc) : t.add d =
    if t.size < idLimit then .ok (t.size, ⟨t.types.push d⟩) else .error .idTooLarge := by
  unfold add checkedId
  split <;> rfl

theorem TypeTable.foldlM_add (descs : List TypeDesc) {t : TypeTable} (ht : t.size ≤ idLimit) :
    descs.foldlM (fun t d => do return (← t.add d).2) t =
      if t.size + descs.length ≤ idLimit then .ok (⟨t.types ++ descs.toArray⟩ : TypeTable)
      else .error .idTooLarge := by
  induction descs generalizing t with
  | nil =>
    rw [List.length_nil, Nat.add_zero, if_pos ht]
    simp [pure, Except.pure]
  | cons d descs ih =>
    rw [List.foldlM_cons, add_eq]
    by_cases hlt : t.size < idLimit
    · have hsize : size ⟨t.types.push d⟩ = t.size + 1 := Array.size_push d
      have hrest := ih (t := ⟨t.types.push d⟩) (hsize ▸ hlt)
      rw [if_pos hlt]
      refine hrest.trans ?_
      rw [hsize, List.length_cons, Nat.add_assoc, Nat.add_comm 1]
      simp
    · rw [if_neg hlt, if_neg (by rw [List.length_cons]; omega)]
      rfl

/-- A table has room for as many types as there are ids. -/
theorem TypeTable.ofList_eq (descs : List TypeDesc) : ofList descs =
    if descs.length ≤ idLimit then .ok ⟨descs.toArray⟩ else .error .idTooLarge := by
  have hempty : (∅ : TypeTable).size = 0 := rfl
  rw [ofList, foldlM_add descs (hempty ▸ Nat.zero_le _), hempty, Nat.zero_add]
  simp [EmptyCollection.emptyCollection, empty]

/-! ### Programs -/

theorem Program.build_eq (d : ProgramDesc) : Program.build d =
    if d.types.length ≤ idLimit then (Program.assemble ⟨d.types.toArray⟩ d).mapError .refused
    else .error (.fault .idTooLarge) := by
  rw [Program.build, TypeTable.ofList_eq]
  split <;> rfl

theorem Program.build_eq_ok {d : ProgramDesc} {p : Program} : Program.build d = .ok p ↔
    d.types.length ≤ idLimit ∧ Program.assemble ⟨d.types.toArray⟩ d = .ok p := by
  rw [Program.build_eq]
  split
  case isTrue h => rw [mapError_eq_ok, and_iff_right h]
  case isFalse h => exact iff_of_false (fun hok => by cases hok) fun hok => h hok.1

/-- What every declaration, statement, flow and seed keeps, told what was read so far, holds of the
    builder in the end. -/
theorem Program.build_induction {I : ProgramDesc → Builder → Prop} {d : ProgramDesc} {p : Program}
    (hbuild : Program.build d = .ok p) (htypes : I { types := d.types } { types := ⟨d.types.toArray⟩ })
    (hvalue : ∀ {done name b c}, I { types := d.types, values := done } b → b.addValue name = .ok c →
      I { types := d.types, values := done ++ [name] } c)
    (hobject : ∀ {done o b c}, I { types := d.types, values := d.values, objects := done } b →
      b.addObject o = .ok c → I { types := d.types, values := d.values, objects := done ++ [o] } c)
    (hstmt : ∀ {done sd b c}, I { d with statements := done, flows := [], seeds := [] } b →
      b.addStmt sd = .ok c → I { d with statements := done ++ [sd], flows := [], seeds := [] } c)
    (hflow : ∀ {done f b c}, I { d with flows := done, seeds := [] } b → b.addFlow f = .ok c →
      I { d with flows := done ++ [f], seeds := [] } c)
    (hseed : ∀ {done sd b c}, I { d with seeds := done } b → b.addSeed sd = .ok c →
      I { d with seeds := done ++ [sd] } c) :
    ∃ b : Builder, b.toProgram = p ∧ I d b := by
  obtain ⟨types, objects, values, statements, flows, seeds⟩ := d
  replace hbuild := (Program.build_eq_ok.mp hbuild).2
  simp only [Program.assemble, Builder.ofTypes, bind_eq_ok, pure_eq_ok] at hbuild
  obtain ⟨b₀, ⟨-, -, -, -, h₀⟩, b₁, h₁, b₂, h₂, b₃, h₃, b₄, h₄, b₅, h₅, h⟩ := hbuild
  cases h₀
  have i₁ := foldlM_result (I := fun done b => I ⟨types, [], done, [], [], []⟩ b) htypes
    (fun _ _ _ _ _ _ hi hadd => hvalue hi hadd) h₁
  have i₂ := foldlM_result (I := fun done b => I ⟨types, done, values, [], [], []⟩ b) i₁
    (fun _ _ _ _ _ _ hi hadd => hobject hi hadd) h₂
  have i₃ := foldlM_result (I := fun done b => I ⟨types, objects, values, done, [], []⟩ b) i₂
    (fun _ _ _ _ _ _ hi hadd => hstmt hi hadd) h₃
  have i₄ := foldlM_result (I := fun done b => I ⟨types, objects, values, statements, done, []⟩ b) i₃
    (fun _ _ _ _ _ _ hi hadd => hflow hi hadd) h₄
  have i₅ := foldlM_result (I := fun done b => I ⟨types, objects, values, statements, flows, done⟩ b) i₄
    (fun _ _ _ _ _ _ hi hadd => hseed hi hadd) h₅
  exact ⟨b₅, Except.ok.inj h, i₅⟩

/-- A built program is the graph of its description. -/
theorem Program.build_spec {d : ProgramDesc} {p : Program} (h : Program.build d = .ok p) :
    ∃ b : Builder, b.toProgram = p ∧ b.Encodes d :=
  build_induction (I := fun d b => b.Encodes d) h (Builder.encodes_empty _)
    (fun he hadd => he.addValue hadd) (fun he hadd => he.addObject hadd)
    (fun he hadd => he.addStmt hadd) (fun he hadd => he.addFlow hadd) (fun he hadd => he.addSeed hadd)

/-- An analysis of a built program can rely on its graph. -/
theorem Program.wellFormed_of_build {d : ProgramDesc} {p : Program} (h : Program.build d = .ok p) :
    p.graph.WellFormed := by
  obtain ⟨b, rfl, he⟩ := Program.build_spec h
  exact he.wellFormed

end PointsTo
