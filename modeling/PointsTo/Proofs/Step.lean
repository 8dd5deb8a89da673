import PointsTo.Proofs.GepVisit
import PointsTo.Proofs.Stores

/-! What one step of the analysis does.

    A step visits a statement and then carries contents along the indirect edges that leave it.
    `Stepped` is its contract; in it the debt of a visit is paid, because the readers of the value
    that changed are on the worklist. -/

namespace PointsTo.Solver

variable {why : Prop} {g₀ : Graph} {loc : NodeId} {n : StmtNode} {s : Solver}

/-- All transfer functions keep the contract. -/
theorem transfer_spec (hwf : g₀.WellFormed) (hloc : loc ∈ g₀.stmts.toList)
    (hn : g₀.stmt loc = .ok n) (hv : s.Valid g₀) :
    Delivers (Overflows s n) (s.transfer loc) (Visited g₀ loc n s) := by
  have hn' : s.graph.stmt loc = .ok n := hv.heap.grows.stmt hn
  unfold transfer
  simp only [hn', ok_bind]
  cases hk : n.kind with
  | addr obj dst => exact visitAddr_spec hwf hloc hn hv hk
  | copy src dst init => exact visitCopy_spec hwf hloc hn hv hk
  | gep base dst offset => exact visitGep_spec hwf hloc hn hv hk
  | load ptr dst => exact visitLoad_spec hwf hloc hn hv hk
  | store src ptr => exact visitStore_spec hwf hloc hn hv hk
  | phi dst operands => exact visitPhi_spec hwf hloc hn hv hk

/-! ### Indirect edges -/

/-- An object holds another one on the edges that leave a statement. -/
def Fact.leaving (fromOut : Bool) (st o x : NodeId) : Fact :=
  if fromOut then .after st o x else .before st o x

/-- The contents of an edge's objects, and of their clones, have arrived at its end. -/
def EdgesCarry (g₀ : Graph) (s : Solver) (st : NodeId) (n : StmtNode) : Prop :=
  ∀ t label, (t, label) ∈ g₀.indirectSuccessors st → ∀ o, s.heap.prototype o ∈ label →
    ∀ x ∈ s.flow.leaving n.kind.isStore st o, x ∈ s.contentsBefore t o

/-- The edges that leave a statement treat an allocation as one place: an edge that carries one of
    its objects carries all of them. -/
def EdgesMerge (g₀ : Graph) (m : MemId) (s : Solver) (st : NodeId) (n : StmtNode) : Prop :=
  ∀ t label, (t, label) ∈ g₀.indirectSuccessors st → (∃ l ∈ label, s.graph.Within m l) →
    ∀ o, s.graph.Within m o → ∀ x ∈ s.flow.leaving n.kind.isStore st o, x ∈ s.contentsBefore t o

/-- The statement and the edges that leave it treat an allocation as one place. -/
def OnePlace (g₀ : Graph) (m : MemId) (s : Solver) (st : NodeId) (n : StmtNode) : Prop :=
  Merges m s st n ∧ EdgesMerge g₀ m s st n

/-- The fact follows from known facts by an edge that leaves the statement. -/
def EdgeInfers (known : Fact → Prop) (g₀ : Graph) (s : Solver) (st : NodeId) (n : StmtNode) :
    Fact → Prop
  | .before t o x => ∃ label, (t, label) ∈ g₀.indirectSuccessors st ∧
    (o ∈ label ∨ ∃ l ∈ label, s.heap.Brings l o) ∧ known (.leaving n.kind.isStore st o x)
  | _ => False

theorem holds_leaving {fromOut : Bool} {st o x : NodeId} :
    s.Holds (.leaving fromOut st o x) ↔ x ∈ s.flow.leaving fromOut st o := by
  cases fromOut <;> exact Iff.rfl

theorem mem_ins_carry {fromOut : Bool} {src dst : NodeId} {acc : Bool × FlowFacts} {obj l o x : NodeId} :
    x ∈ (carry fromOut src dst acc obj).2.ins.setAt l o ↔
      (l = dst ∧ o = obj ∧ x ∈ acc.2.leaving fromOut src obj) ∨ x ∈ acc.2.ins.setAt l o := by
  cases fromOut with
  | true => exact FlowFacts.mem_ins_inFromOut
  | false => exact FlowFacts.mem_ins_inFromIn

theorem outs_carry (fromOut : Bool) (src dst : NodeId) (acc : Bool × FlowFacts) (obj : NodeId) :
    (carry fromOut src dst acc obj).2.outs = acc.2.outs := by
  cases fromOut <;> rfl

theorem carry_fst {fromOut : Bool} {src dst : NodeId} {acc : Bool × FlowFacts} {obj : NodeId} :
    (carry fromOut src dst acc obj).1 = true ↔ acc.1 = true ∨
      ∃ x ∈ acc.2.leaving fromOut src obj, x ∉ acc.2.ins.setAt dst obj := by
  cases fromOut with
  | true => exact Bool.or_eq_true_iff.trans (or_congr_right FlowFacts.inFromOut_fst)
  | false => exact Bool.or_eq_true_iff.trans (or_congr_right FlowFacts.inFromIn_fst)

/-- Carrying contents away from a statement does not change what leaves it, not even along a loop. -/
theorem mem_leaving_carry {fromOut : Bool} {src dst : NodeId} {acc : Bool × FlowFacts}
    {obj o x : NodeId} : x ∈ (carry fromOut src dst acc obj).2.leaving fromOut src o ↔
      x ∈ acc.2.leaving fromOut src o := by
  cases fromOut with
  | true => exact Iff.rfl
  | false =>
    show x ∈ (carry false src dst acc obj).2.ins.setAt src o ↔ x ∈ acc.2.ins.setAt src o
    rw [mem_ins_carry]
    refine ⟨?_, Or.inr⟩
    rintro (⟨-, rfl, hx⟩ | hx)
    · exact hx
    · exact hx

/-- What carrying the contents of several objects does. -/
structure Carried (fromOut : Bool) (src dst : NodeId) (objs : List NodeId) (f : FlowFacts)
    (r : Bool × FlowFacts) : Prop where
  outs : r.2.outs = f.outs
  leaving : ∀ {o x}, x ∈ r.2.leaving fromOut src o ↔ x ∈ f.leaving fromOut src o
  ins : ∀ {l o x}, x ∈ r.2.ins.setAt l o ↔
    (l = dst ∧ o ∈ objs ∧ x ∈ f.leaving fromOut src o) ∨ x ∈ f.ins.setAt l o
  changed : r.1 = true ↔ ∃ o ∈ objs, ∃ x ∈ f.leaving fromOut src o, x ∉ f.ins.setAt dst o

theorem carried_foldl (fromOut : Bool) (src dst : NodeId) (objs : List NodeId) (f : FlowFacts) :
    Carried fromOut src dst objs f (objs.foldl (carry fromOut src dst) (false, f)) := by
  refine foldl_keeps (I := fun done r => Carried fromOut src dst done f r)
    ⟨rfl, Iff.rfl, by simp, by simp⟩ ?_
  intro done obj rest r _ hr
  refine ⟨(outs_carry ..).trans hr.outs, mem_leaving_carry.trans hr.leaving, ?_, ?_⟩
  · intro l o x
    rw [mem_ins_carry, hr.ins, hr.leaving]
    simp only [List.mem_append, List.mem_singleton]
    constructor
    · rintro (⟨hl, rfl, hx⟩ | ⟨hl, ho, hx⟩ | hx)
      · exact Or.inl ⟨hl, Or.inr rfl, hx⟩
      · exact Or.inl ⟨hl, Or.inl ho, hx⟩
      · exact Or.inr hx
    · rintro (⟨hl, ho | rfl, hx⟩ | hx)
      · exact Or.inr (Or.inl ⟨hl, ho, hx⟩)
      · exact Or.inl ⟨hl, rfl, hx⟩
      · exact Or.inr (Or.inr hx)
  · rw [carry_fst, hr.changed]
    simp only [hr.leaving, hr.ins, true_and, List.mem_append, List.mem_singleton, not_or, not_and]
    constructor
    · rintro (⟨o, ho, x, hx, hnx⟩ | ⟨x, hx, -, hnx⟩)
      · exact ⟨o, Or.inl ho, x, hx, hnx⟩
      · exact ⟨obj, Or.inr rfl, x, hx, hnx⟩
    · rintro ⟨o, ho | rfl, x, hx, hnx⟩
      · exact Or.inl ⟨o, ho, x, hx, hnx⟩
      · by_cases hdone : o ∈ done
        · exact Or.inl ⟨o, hdone, x, hx, hnx⟩
        · exact Or.inr ⟨x, hx, fun h => absurd h hdone, hnx⟩

/-- What holds while contents are carried along the edges that leave a statement. -/
structure Propagating (g₀ : Graph) (loc : NodeId) (n : StmtNode) (s₀ : Solver)
    (done : List (NodeId × IdSet)) (s : Solver) : Prop where
  valid : s.Valid g₀
  evolves : Evolves g₀ loc false s₀ s
  heap : s.heap = s₀.heap
  pointers : s.pointers = s₀.pointers
  filters : s.filters = s₀.filters
  outs : s.flow.outs = s₀.flow.outs
  leaving : ∀ {o x}, x ∈ s.flow.leaving n.kind.isStore loc o ↔ x ∈ s₀.flow.leaving n.kind.isStore loc o
  carried : ∀ t label, (t, label) ∈ done → ∀ o, (o ∈ label ∨ ∃ l ∈ label, s.heap.Brings l o) →
    ∀ x ∈ s.flow.leaving n.kind.isStore loc o, x ∈ s.contentsBefore t o
  new : ∀ {l o x}, x ∈ s.contentsBefore l o → x ∈ s₀.contentsBefore l o ∨
    EdgeInfers s₀.Holds g₀ s loc n (.before l o x)

theorem Propagating.init (hv : s.Valid g₀) : Propagating g₀ loc n s [] s where
  valid := hv
  evolves := .refl g₀ loc s
  heap := rfl
  pointers := rfl
  filters := rfl
  outs := rfl
  leaving := Iff.rfl
  carried _ _ h := absurd h List.not_mem_nil
  new := Or.inl

/-- What leaves a statement is about objects. -/
theorem hasObj_of_leaving (hv : s.Valid g₀) {fromOut : Bool} {st o x : NodeId}
    (hx : x ∈ s.flow.leaving fromOut st o) : s.graph.HasObj o ∧ s.graph.HasObj x := by
  cases fromOut with
  | true => exact (hv.after hx).2
  | false => exact (hv.before hx).2

/-- Memory that the program does not own holds nothing that could leave a statement. -/
theorem owned_of_leaving (hv : s.Valid g₀) {fromOut : Bool} {st o x : NodeId} {ob : ObjNode}
    (hx : x ∈ s.flow.leaving fromOut st o) (hob : s.graph.obj o = .ok ob) : ob.isSpecial = false := by
  cases fromOut with
  | true => exact hv.owned (Or.inr hx) hob
  | false => exact hv.owned (Or.inl hx) hob

/-- A label stands for the clones of its objects too. -/
theorem brings_of_prototype (hv : s.Valid g₀) {label : IdSet} {o : NodeId}
    (ho : s.heap.prototype o ∈ label) : o ∈ label ∨ ∃ l ∈ label, s.heap.Brings l o := by
  cases hproto : s.heap.prototypes[o]? with
  | none =>
    rw [Heap.prototype_of_none hproto] at ho
    exact Or.inl ho
  | some p =>
    rw [Heap.prototype_of_some hproto] at ho
    have hp := Heap.prototype_of_none (hv.heap.clone hproto).1
    exact Or.inr ⟨p, ho, Or.inr (Or.inl (hp.symm ▸ hproto))⟩

/-- An object of an allocation without fields brings all the others along. -/
theorem brings_of_within (hv : s.Valid g₀) {m : MemId}
    (hm : (s.graph.mem m).fieldInsensitive = true) {l o : NodeId} (hl : s.graph.Within m l)
    (ho : s.graph.Within m o) : s.heap.Brings l o := by
  obtain ⟨ol, hol, rfl⟩ := hl
  exact Or.inr (Or.inr ⟨ol, hol, Or.inr ⟨hm, hv.heap.memObjects.mpr ho⟩⟩)

/-- Contents were carried along one more edge. -/
theorem Propagating.next {s₀ s' : Solver} {done : List (NodeId × IdSet)} {t : NodeId} {label : IdSet}
    {objs : List NodeId} {changed : Bool} {f : FlowFacts} (hp : Propagating g₀ loc n s₀ done s)
    (hedge : (t, label) ∈ g₀.indirectSuccessors loc)
    (hc : Carried n.kind.isStore loc t objs s.flow (changed, f))
    (hobjs : ∀ o, o ∈ objs ↔ o ∈ label ∨ ∃ l ∈ label, s.heap.Brings l o) (hheap : s'.heap = s.heap)
    (hpointers : s'.pointers = s.pointers) (hfilters : s'.filters = s.filters) (hf : s'.flow = f)
    (hv' : s'.Valid g₀) (he : Evolves g₀ loc false s s') :
    Propagating g₀ loc n s₀ (done ++ [(t, label)]) s' where
  valid := hv'
  evolves := hp.evolves.trans he
  heap := hheap.trans hp.heap
  pointers := hpointers.trans hp.pointers
  filters := hfilters.trans hp.filters
  outs := by rw [hf]; exact hc.outs.trans hp.outs
  leaving := by
    intro o x
    rw [hf]
    exact hc.leaving.trans hp.leaving
  carried := by
    intro t' label' hmem o ho x hx
    rw [hheap] at ho
    rw [hf] at hx
    have hx' := hc.leaving.mp hx
    rcases List.mem_append.mp hmem with hmem | hmem
    · exact he.before (hp.carried t' label' hmem o ho x hx')
    · rw [List.mem_singleton, Prod.mk.injEq] at hmem
      obtain ⟨rfl, rfl⟩ := hmem
      rw [contentsBefore, hf]
      exact hc.ins.mpr (Or.inl ⟨rfl, (hobjs o).mpr ho, hx'⟩)
  new := by
    intro l o x hx
    simp only [EdgeInfers, hheap]
    rw [contentsBefore, hf] at hx
    rcases hc.ins.mp hx with ⟨rfl, ho, hx⟩ | hx
    · exact Or.inr ⟨label, hedge, (hobjs o).mp ho, holds_leaving.mpr (hp.leaving.mp hx)⟩
    · exact hp.new hx

theorem propagateEdge_spec (hwf : g₀.WellFormed) {s₀ : Solver} {done : List (NodeId × IdSet)}
    {edge : NodeId × IdSet} (hedge : edge ∈ g₀.indirectSuccessors loc)
    (hp : Propagating g₀ loc n s₀ done s) :
    Delivers why (propagateEdge n.kind.isStore loc s edge)
      (Propagating g₀ loc n s₀ (done ++ [edge])) := by
  obtain ⟨t, label⟩ := edge
  obtain ⟨objs, hexp, hmem⟩ := Heap.expand_spec hp.valid.heap fun l hl =>
    hp.valid.heap.grows.hasObj ((hwf.indirect hedge).2 l hl)
  have hc := carried_foldl n.kind.isStore loc t objs.toList s.flow
  unfold propagateEdge
  simp only [hexp, ok_bind]
  generalize objs.toList.foldl (carry n.kind.isStore loc t) (false, s.flow) = r at hc ⊢
  obtain ⟨changed, f⟩ := r
  have he : Evolves g₀ loc false s
      (if changed then Solver.enqueue { s with flow := f } [t] else { s with flow := f }) := by
    refine evolves_before hc.outs (fun hx => hc.ins.mpr (Or.inr hx)) ?_ ?_
    · intro l o x hx
      by_cases hold : x ∈ s.flow.ins.setAt l o
      · exact Or.inl hold
      · rcases hc.ins.mp hx with ⟨rfl, ho, hx⟩ | hx
        · exact Or.inr ⟨rfl, hc.changed.mpr ⟨o, ho, x, hx, hold⟩⟩
        · exact absurd hx hold
    · intro hch
      obtain ⟨o, ho, x, hx, hnx⟩ := hc.changed.mp hch
      exact ⟨o, x, hc.ins.mpr (Or.inl ⟨rfl, ho, hx⟩), hnx⟩
  have hflow : Valid g₀ { s with flow := f } := by
    refine hp.valid.withFlow ?_ ?_ ?_
    · intro l o x hx
      rcases hc.ins.mp hx with ⟨rfl, -, hx⟩ | hx
      · exact Or.inr ⟨(hwf.indirect hedge).1, hasObj_of_leaving hp.valid hx⟩
      · exact Or.inl hx
    · intro l o x hx
      rw [hc.outs] at hx
      exact Or.inl hx
    · rintro l o x ob (hx | hx) hob
      · rcases hc.ins.mp hx with ⟨-, -, hx⟩ | hx
        · exact owned_of_leaving hp.valid hx hob
        · exact hp.valid.owned (Or.inl hx) hob
      · rw [hc.outs] at hx
        exact hp.valid.owned (Or.inr hx) hob
  have hobjs : ∀ o, o ∈ objs.toList ↔ o ∈ label ∨ ∃ l ∈ label, s.heap.Brings l o := fun o =>
    IdSet.mem_toList.trans (hmem o)
  cases changed with
  | true =>
    exact hp.next hedge hc hobjs rfl rfl rfl rfl
      (hflow.enqueue (by simpa using (hwf.indirect hedge).1)) he
  | false => exact hp.next hedge hc hobjs rfl rfl rfl rfl hflow he

theorem propagate_spec (hwf : g₀.WellFormed) (hn : g₀.stmt loc = .ok n) (hv : s.Valid g₀) :
    Delivers why (s.propagate loc) (Propagating g₀ loc n s (g₀.indirectSuccessors loc)) := by
  have hn' : s.graph.stmt loc = .ok n := hv.heap.grows.stmt hn
  have hedges : s.graph.indirectSuccessors loc = g₀.indirectSuccessors loc :=
    hv.heap.grows.indirectSuccessors loc
  unfold propagate
  simp only [hn', ok_bind, hedges]
  refine Delivers.foldlM (I := Propagating g₀ loc n s) (.init hv) ?_
  intro done edge rest s' hsplit hp
  exact propagateEdge_spec hwf (by rw [hsplit]; simp) hp

/-! ### The visit -/

/-- What a step to a statement does. -/
structure Stepped (g₀ : Graph) (loc : NodeId) (n : StmtNode) (s s' : Solver) : Prop where
  valid : s'.Valid g₀
  evolves : Evolves g₀ loc false s s'
  settled : loc ∈ s'.pending.items ∨ (Settled g₀ s' loc n ∧
    ∀ m, (s.graph.mem m).fieldInsensitive = true → OnePlace g₀ m s' loc n)
  carried : EdgesCarry g₀ s' loc n
  explained : ∀ x, s'.filters.isFiltered loc x = true →
    s.filters.isFiltered loc x = true ∨ Explained s' n x
  fit : ∀ {ptr x}, n.kind.pointer? = some ptr → x ∈ s'.pts ptr →
    x ∈ s.pts ptr ∨ n.kind.target? ≠ some ptr → s'.filters.isFiltered loc x = false → s'.Fit n x
  steady : ∀ {x}, s.graph.HasObj x → s.Fit n x → s'.filters.isFiltered loc x = true →
    s.filters.isFiltered loc x = true
  inferred : ∀ known : Fact → Prop, (∀ f, s.Holds f → known f) →
    (∀ f, Splits (fun f => s'.Holds f ∧ known f) s' n f → known f) →
    (∀ f, Infers (fun f => s'.Holds f ∧ known f) g₀ s' loc n f → known f) →
    (∀ f, EdgeInfers (fun f => s'.Holds f ∧ known f) g₀ s' loc n f → known f) →
    ∀ f, s'.Holds f → known f
  collapses : s.options.typed = false → ∀ m, (s'.graph.mem m).fieldInsensitive = true →
    (s.graph.mem m).fieldInsensitive = true ∨ Collapses s.Holds s' n m

/-- The readers of a changed value are put on the worklist. -/
theorem Visited.enqueue (hwf : g₀.WellFormed) (hloc : loc ∈ g₀.stmts.toList)
    (hn : g₀.stmt loc = .ok n) {r : Bool × Solver} (hvis : Visited g₀ loc n s r) :
    Visited g₀ loc n s (false, if r.1 then r.2.enqueue (r.2.graph.directSuccessors loc) else r.2) := by
  obtain ⟨changed, s₁⟩ := r
  cases changed with
  | false => exact hvis
  | true =>
    rw [if_pos rfl, show s₁.graph.directSuccessors loc = g₀.directSuccessors loc from
      hvis.valid.heap.grows.directSuccessors loc]
    have hreaders : ∀ v, Targets g₀ loc v → ∀ u ∈ g₀.users v,
        u ∈ (s₁.enqueue (g₀.directSuccessors loc)).pending.items := by
      rintro v ⟨n', hn', hv⟩ u hu
      obtain rfl := ok_unique hn hn'
      exact Worklist.mem_pushAll.mpr (Or.inl ((hwf.target hloc hn hv).2 u hu))
    refine ⟨hvis.valid.enqueue fun _ => hwf.direct,
      (hvis.evolves.enqueue (hvis.evolves.dirtyPaid rfl) _).clean fun _ => hreaders, ?_,
      hvis.explained, hvis.fit, hvis.steady, hvis.inferred, hvis.collapses⟩
    rcases hvis.settled with hpend | ⟨-, v, hv, ht⟩ | hset
    · exact Or.inl (Worklist.mem_pushAll.mpr (Or.inr hpend))
    · exact Or.inl (hreaders v ⟨n, hn, ht⟩ loc (hwf.uses hloc hn hv).2)
    · exact Or.inr (Or.inr hset)

/-- Carrying contents along edges completes a visit that owes nothing. -/
theorem Visited.propagated (hwf : g₀.WellFormed) (hloc : loc ∈ g₀.stmts.toList)
    (hn : g₀.stmt loc = .ok n) {s₁ s' : Solver} (hq : Visited g₀ loc n s (false, s₁))
    (hp : Propagating g₀ loc n s₁ (g₀.indirectSuccessors loc) s') : Stepped g₀ loc n s s' where
  valid := hp.valid
  evolves := hq.evolves.trans hp.evolves
  settled := by
    by_cases hpend : loc ∈ s'.pending.items
    · exact Or.inl hpend
    rcases hq.settled with h | ⟨h, -⟩ | hset
    · exact absurd (hp.evolves.pending h) hpend
    · exact absurd h Bool.false_ne_true
    · have hu := hp.evolves.undisturbed hwf hq.valid hp.valid hloc hn hpend
        (fun h => absurd h (by decide)) fun o ho => by rw [← hp.filters]; exact ho
      refine Or.inr ⟨hu.settled hset.1, fun m hm => ⟨hu.merges (hset.2 m hm), ?_⟩⟩
      have hm' := (hq.evolves.trans hp.evolves).heap.graph.collapsed hm
      rintro t label hedge ⟨l, hl, hlm⟩ o ho
      exact hp.carried t label hedge o (Or.inr ⟨l, hl, brings_of_within hp.valid hm' hlm ho⟩)
  carried t label hedge o ho := hp.carried t label hedge o (brings_of_prototype hp.valid ho)
  explained := by
    intro x hx
    rw [hp.filters] at hx
    refine (hq.explained x hx).imp_right fun hwhy => ?_
    obtain ⟨-, n', v, -, -, hxv⟩ := hq.valid.filters hx
    exact hwhy.keep hq.valid hp.evolves.types hp.evolves.options hp.evolves.heap hp.evolves.pts
      (hq.valid.pts hxv).2
  fit := by
    intro ptr x hptr hx hold hseen
    rw [pts, hp.pointers] at hx
    rw [hp.filters] at hseen
    exact (hq.fit hptr hx hold hseen).keep hq.valid hp.evolves.types hp.evolves.options hp.evolves.heap
      (hq.valid.pts hx).2
  steady := by
    intro x hx hfit hfil
    rw [hp.filters] at hfil
    exact hq.steady hx hfit hfil
  inferred := by
    intro known hold hsplit hrule hedge f hf
    -- The rule of the statement comes first, then the edges pass on what the visit left there.
    have hvisit : ∀ f, s₁.Holds f → known f := by
      have hkept : ∀ f, s₁.Holds f ∧ known f → s'.Holds f ∧ known f := fun f h =>
        ⟨hp.evolves.holds h.1, h.2⟩
      refine hq.inferred known hold (fun f h => hsplit f ((h.mono hkept).keep hp.heap)) fun f h => ?_
      exact hrule f ((h.mono hkept).keep hp.evolves.types hp.evolves.options hp.heap hp.pointers hp.filters)
    cases f with
    | object o =>
      simp only [Holds, graph, hp.heap] at hf
      exact hvisit _ hf
    | pts v o =>
      simp only [Holds, pts, hp.pointers] at hf
      exact hvisit _ hf
    | after st o x =>
      simp only [Holds, contentsAfter, hp.outs] at hf
      exact hvisit _ hf
    | before st o x =>
      rcases hp.new hf with hx | ⟨label, hl, ho, hx⟩
      · exact hvisit _ hx
      · exact hedge _ ⟨label, hl, ho, hp.evolves.holds hx, hvisit _ hx⟩
  collapses := by
    intro huntyped m hm
    rw [show s'.graph = s₁.graph from congrArg Heap.graph hp.heap] at hm
    exact (hq.collapses huntyped m hm).imp_right fun hc =>
      hc.keep hp.evolves.types hp.evolves.heap

theorem visit_spec (hwf : g₀.WellFormed) (hloc : loc ∈ g₀.stmts.toList) (hn : g₀.stmt loc = .ok n)
    (hv : s.Valid g₀) :
    Delivers (Overflows s n) (s.visit loc) (Stepped g₀ loc n s) := by
  unfold visit
  refine (transfer_spec hwf hloc hn (hv.counted (s.numProcessed + 1) s.numStrongUpdates)).bind ?_
  intro r hvis
  have hq := hvis.enqueue hwf hloc hn
  refine (propagate_spec hwf hn hq.valid).mono fun s' hp => ?_
  have hstart : Evolves g₀ loc false s { s with numProcessed := s.numProcessed + 1 } :=
    (Evolves.refl g₀ loc s).counted _ _
  have hstep := hq.propagated hwf hloc hn hp
  exact { hstep with evolves := hstart.trans hstep.evolves }

end PointsTo.Solver
