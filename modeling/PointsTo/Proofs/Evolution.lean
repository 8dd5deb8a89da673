import PointsTo.Solver.Run
import PointsTo.Proofs.HeapSteps

/-! How the state of an analysis may change while a statement is visited.

    `Valid` says that everything in the state is about values, objects and statements of the graph.
    `Evolves` is everything a visit can do to the state, cut into pieces that compose: nothing is ever
    forgotten; whoever reads something new waits on the worklist; and whoever was put there is paid
    for by a new fact. All that is proved of runs is derived from these two. -/

namespace PointsTo.Solver

/-! ### Facts -/

/-- What an analysis finds out. -/
inductive Fact where
  | object (o : NodeId)
  | pts (v o : NodeId)
  | before (stmt o x : NodeId)
  | after (stmt o x : NodeId)
  deriving DecidableEq

/-- Is the fact known in a state? -/
def Holds (s : Solver) : Fact → Prop
  | .object o => s.graph.HasObj o
  | .pts v o => o ∈ s.pts v
  | .before stmt o x => x ∈ s.contentsBefore stmt o
  | .after stmt o x => x ∈ s.contentsAfter stmt o

/-- Some fact is known in the second state and not in the first. -/
def Learns (s s' : Solver) : Prop := ∃ f, s'.Holds f ∧ ¬ s.Holds f

/-! ### Valid states -/

/-- Does a statement of the graph access memory of the type? -/
def Accessed (types : Hierarchy) (g : Graph) (t : TypeId) : Prop :=
  ∃ st ∈ g.stmts.toList, ∃ n, g.stmt st = .ok n ∧ types.canonical n.ty = some t

/-- The state is about the nodes of its graph, which grew from `g₀`. -/
structure Valid (g₀ : Graph) (s : Solver) : Prop where
  heap : s.heap.Valid g₀ (Accessed s.types g₀)
  pts : ∀ {v o}, o ∈ s.pts v → g₀.isValue v = true ∧ s.graph.HasObj o
  before : ∀ {st o x}, x ∈ s.contentsBefore st o →
    st ∈ g₀.stmts.toList ∧ s.graph.HasObj o ∧ s.graph.HasObj x
  after : ∀ {st o x}, x ∈ s.contentsAfter st o →
    st ∈ g₀.stmts.toList ∧ s.graph.HasObj o ∧ s.graph.HasObj x
  pending : ∀ {st}, st ∈ s.pending.items → st ∈ g₀.stmts.toList
  filters : ∀ {st o}, s.filters.isFiltered st o = true → s.options.typed = true ∧
    ∃ n v, g₀.stmt st = .ok n ∧ n.kind.pointer? = some v ∧ o ∈ s.pts v
  clones : ∀ {c p : NodeId}, s.heap.prototypes[c]? = some p → s.options.typed = true
  owned : ∀ {st o x ob}, x ∈ s.contentsBefore st o ∨ x ∈ s.contentsAfter st o →
    s.graph.obj o = .ok ob → ob.isSpecial = false

section Allocations

variable {g₀ : Graph} {s : Solver}

/-- All objects of an allocation without fields come from its whole object. -/
theorem Valid.prototype_of_collapsed (hwf : g₀.WellFormed) (hv : s.Valid g₀) {l o : NodeId}
    {ol ob : ObjNode} (hl : g₀.obj l = .ok ol) (ho : s.graph.obj o = .ok ob) (hmem : ob.mem = ol.mem)
    (hfi : (g₀.mem ol.mem).fieldInsensitive = true) : s.heap.prototype o = l := by
  have hwhole : ob.isField = false := by
    cases hf : ob.isField with
    | false => rfl
    | true =>
      have hopened := hv.heap.opened ho hf
      rw [hmem, hfi] at hopened
      cases hopened
  obtain ⟨hp, hnone⟩ := hv.heap.prototype ho
  have hroot := hv.heap.root hp hwhole hnone
  rcases hv.heap.grows.obj_cases hp with hobj | hge
  · exact hwf.memInj hobj hl hmem
  · exact absurd hroot (Nat.not_lt.mpr hge)

/-- What shares an allocation with memory that the program does not own is not the program's own. -/
theorem Valid.isSpecial_of_mem (hwf : g₀.WellFormed) (hv : s.Valid g₀) {x y : NodeId} {ox oy : ObjNode}
    (hx : s.graph.obj x = .ok ox) (hs : ox.isSpecial = true) (hy : s.graph.obj y = .ok oy)
    (hmem : oy.mem = ox.mem) : oy.isSpecial = true := by
  have hwhole : ox.isField = false := by
    cases hk : ox.kind <;> simp_all [ObjNode.isSpecial, ObjNode.isField]
  obtain ⟨hp, hnone⟩ := hv.heap.prototype hx
  rcases hv.heap.grows.obj_cases hp with hobj | hge
  · have hsame := hv.prototype_of_collapsed hwf hobj hy hmem (hwf.foreign hobj hs)
    rw [← hsame] at hp
    exact ok_unique hp (hv.heap.prototype hy).1 ▸ hs
  · exact absurd (hv.heap.root hp hwhole hnone) (Nat.not_lt.mpr hge)

end Allocations

/-! ### Evolution -/

/-- The value that the statement at a place defines. -/
def Targets (g : Graph) (loc v : NodeId) : Prop := ∃ n, g.stmt loc = .ok n ∧ n.kind.target? = some v

/-- What a part of a visit to `loc` may do. The flag says that the readers of the value that `loc`
    defines are still to be put on the worklist. -/
structure Evolves (g₀ : Graph) (loc : NodeId) (dirty : Bool) (s s' : Solver) : Prop where
  types : s'.types = s.types
  options : s'.options = s.options
  heap : s.heap.Extends s'.heap
  pending : ∀ {st}, st ∈ s.pending.items → st ∈ s'.pending.items
  pts : ∀ {v o}, o ∈ s.pts v → o ∈ s'.pts v
  ptsNew : ∀ {v o}, o ∈ s'.pts v → o ∈ s.pts v ∨ (∀ u ∈ g₀.users v, u ∈ s'.pending.items) ∨
    (dirty = true ∧ Targets g₀ loc v)
  before : ∀ {st o x}, x ∈ s.contentsBefore st o → x ∈ s'.contentsBefore st o
  beforeNew : ∀ {st o x}, x ∈ s'.contentsBefore st o →
    x ∈ s.contentsBefore st o ∨ st ∈ s'.pending.items
  after : ∀ {st o x}, x ∈ s.contentsAfter st o → x ∈ s'.contentsAfter st o
  afterNew : ∀ {st o x}, x ∈ s'.contentsAfter st o → x ∈ s.contentsAfter st o ∨ st = loc
  filters : ∀ {st o}, s.filters.isFiltered st o = true → s'.filters.isFiltered st o = true
  filtersNew : ∀ {st o}, s'.filters.isFiltered st o = true →
    s.filters.isFiltered st o = true ∨ st = loc
  clones : ∀ {c p : NodeId}, s'.heap.prototypes[c]? = some p → s.heap.prototypes[c]? = some p ∨
    ∀ o, s.graph.obj p = .ok o → ∀ st ∈ s.heap.announced p o.kind, st ∈ s'.pending.items
  paid : s'.pending = s.pending ∨ Learns s s'
  dirtyPaid : dirty = true → Learns s s'

namespace Evolves

variable {g₀ : Graph} {loc : NodeId} {dirty dirty' : Bool} {s s' s'' : Solver}

theorem refl (g₀ : Graph) (loc : NodeId) (s : Solver) : Evolves g₀ loc false s s where
  types := rfl
  options := rfl
  heap := .refl _
  pending h := h
  pts h := h
  ptsNew h := Or.inl h
  before h := h
  beforeNew h := Or.inl h
  after h := h
  afterNew h := Or.inl h
  filters h := h
  filtersNew h := Or.inl h
  clones h := Or.inl h
  paid := Or.inl rfl
  dirtyPaid h := absurd h (by decide)

/-- Facts are never forgotten. -/
theorem holds (he : Evolves g₀ loc dirty s s') {f : Fact} (hf : s.Holds f) : s'.Holds f := by
  cases f with
  | object o => exact he.heap.graph.hasObj hf
  | pts v o => exact he.pts hf
  | before st o x => exact he.before hf
  | after st o x => exact he.after hf

theorem learns_left (he : Evolves g₀ loc dirty s s') (hl : Learns s' s'') : Learns s s'' := by
  obtain ⟨f, hf, hnf⟩ := hl
  exact ⟨f, hf, fun h => hnf (he.holds h)⟩

theorem learns_right (he : Evolves g₀ loc dirty s' s'') (hl : Learns s s') : Learns s s'' := by
  obtain ⟨f, hf, hnf⟩ := hl
  exact ⟨f, he.holds hf, hnf⟩

theorem trans (he : Evolves g₀ loc dirty s s') (he' : Evolves g₀ loc dirty' s' s'') :
    Evolves g₀ loc (dirty || dirty') s s'' where
  types := he'.types.trans he.types
  options := he'.options.trans he.options
  heap := he.heap.trans he'.heap
  pending h := he'.pending (he.pending h)
  pts h := he'.pts (he.pts h)
  ptsNew := by
    intro v o ho
    rcases he'.ptsNew ho with ho | hall | ⟨hd, ht⟩
    · rcases he.ptsNew ho with ho | hall | ⟨hd, ht⟩
      · exact Or.inl ho
      · exact Or.inr (Or.inl fun u hu => he'.pending (hall u hu))
      · exact Or.inr (Or.inr ⟨by simp [hd], ht⟩)
    · exact Or.inr (Or.inl hall)
    · exact Or.inr (Or.inr ⟨by simp [hd], ht⟩)
  before h := he'.before (he.before h)
  beforeNew := by
    intro st o x hx
    rcases he'.beforeNew hx with hx | hst
    · exact (he.beforeNew hx).imp_right he'.pending
    · exact Or.inr hst
  after h := he'.after (he.after h)
  afterNew := by
    intro st o x hx
    rcases he'.afterNew hx with hx | hst
    · exact he.afterNew hx
    · exact Or.inr hst
  filters h := he'.filters (he.filters h)
  filtersNew := by
    intro st o ho
    rcases he'.filtersNew ho with ho | hst
    · exact he.filtersNew ho
    · exact Or.inr hst
  clones := by
    intro c p hc
    rcases he'.clones hc with hc | hall
    · rcases he.clones hc with hc | hall
      · exact Or.inl hc
      · exact Or.inr fun o ho st hst => he'.pending (hall o ho st hst)
    · right
      intro o ho st hst
      exact hall o (he.heap.graph.obj ho) st (he.heap.announced ho hst)
  paid := by
    rcases he'.paid with heq | hl
    · rcases he.paid with heq' | hl
      · exact Or.inl (heq.trans heq')
      · exact Or.inr (he'.learns_right hl)
    · exact Or.inr (he.learns_left hl)
  dirtyPaid := by
    intro hd
    rcases Bool.or_eq_true_iff.mp hd with hd | hd
    · exact he'.learns_right (he.dirtyPaid hd)
    · exact he.learns_left (he'.dirtyPaid hd)

/-- Statements may be put on the worklist once something was learned. -/
theorem enqueue (he : Evolves g₀ loc dirty s s') (hl : Learns s s') (l : List NodeId) :
    Evolves g₀ loc dirty s (s'.enqueue l) :=
  have hpend : ∀ {st}, st ∈ s'.pending.items → st ∈ (s'.enqueue l).pending.items := fun h =>
    Worklist.mem_pushAll.mpr (Or.inr h)
  { types := he.types
    options := he.options
    heap := he.heap
    pending := fun h => hpend (he.pending h)
    pts := he.pts
    ptsNew := fun h => (he.ptsNew h).imp_right (Or.imp_left fun hall u hu => hpend (hall u hu))
    before := he.before
    beforeNew := fun h => (he.beforeNew h).imp_right hpend
    after := he.after
    afterNew := he.afterNew
    filters := he.filters
    filtersNew := he.filtersNew
    clones := fun h => (he.clones h).imp_right fun hall o ho st hst => hpend (hall o ho st hst)
    paid := Or.inr hl
    dirtyPaid := fun _ => hl }

/-- Counting visits changes nothing else. -/
theorem counted (he : Evolves g₀ loc dirty s s') (visits updates : Nat) :
    Evolves g₀ loc dirty s { s' with numProcessed := visits, numStrongUpdates := updates } :=
  { he with }

/-- Once the readers of the defined value wait, the visit owes nothing. -/
theorem clean (he : Evolves g₀ loc dirty s s')
    (hread : dirty = true → ∀ v, Targets g₀ loc v → ∀ u ∈ g₀.users v, u ∈ s'.pending.items) :
    Evolves g₀ loc false s s' :=
  { he with
    ptsNew := fun h => by
      rcases he.ptsNew h with h | h | ⟨hd, ht⟩
      · exact Or.inl h
      · exact Or.inr (Or.inl h)
      · exact Or.inr (Or.inl (hread hd _ ht))
    dirtyPaid := fun h => absurd h (by decide) }

end Evolves

/-! ### Single changes -/

section Changes

variable {g₀ : Graph} {loc : NodeId} {s : Solver}

/-- A change of the heap that makes no clones. -/
theorem evolves_heap {h' : Heap} (hext : s.heap.Extends h')
    (hproto : h'.prototypes = s.heap.prototypes) :
    Evolves g₀ loc false s { s with heap := h' } :=
  { Evolves.refl g₀ loc s with
    heap := hext
    clones := fun hc => Or.inl (by rw [← hproto]; exact hc)
    paid := Or.inl rfl
    dirtyPaid := fun h => absurd h (by decide) }

theorem Valid.withHeap (hv : s.Valid g₀) {h' : Heap} (hext : s.heap.Extends h')
    (hv' : h'.Valid g₀ (Accessed s.types g₀))
    (hclones : h'.prototypes = s.heap.prototypes ∨ s.options.typed = true) :
    Valid g₀ { s with heap := h' } where
  heap := hv'
  pts ho := ⟨(hv.pts ho).1, hext.graph.hasObj (hv.pts ho).2⟩
  before hx :=
    ⟨(hv.before hx).1, hext.graph.hasObj (hv.before hx).2.1, hext.graph.hasObj (hv.before hx).2.2⟩
  after hx :=
    ⟨(hv.after hx).1, hext.graph.hasObj (hv.after hx).2.1, hext.graph.hasObj (hv.after hx).2.2⟩
  pending := hv.pending
  filters := hv.filters
  clones hc := by
    rcases hclones with hsame | htyped
    · rw [hsame] at hc
      exact hv.clones hc
    · exact htyped
  owned hx hob := by
    obtain ⟨ob', hob'⟩ := hx.elim (fun hx => (hv.before hx).2.1) fun hx => (hv.after hx).2.1
    obtain rfl := ok_unique (hext.graph.obj hob') hob
    exact hv.owned hx hob'

theorem Valid.counted (hv : s.Valid g₀) (visits updates : Nat) :
    Valid g₀ { s with numProcessed := visits, numStrongUpdates := updates } :=
  { hv with }

theorem Valid.enqueue (hv : s.Valid g₀) {l : List NodeId} (hl : ∀ st ∈ l, st ∈ g₀.stmts.toList) :
    Valid g₀ (s.enqueue l) :=
  { hv with
    pending := by
      intro st hst
      rcases Worklist.mem_pushAll.mp hst with hst | hst
      · exact hl st hst
      · exact hv.pending hst }

theorem mem_pts_point {v : NodeId} {objs : IdSet} {w o : NodeId} :
    o ∈ (s.point v objs).2.pts w ↔ (w = v ∧ o ∈ objs) ∨ o ∈ s.pts w :=
  PointerSets.mem_pts_addAll

theorem point_fst {v : NodeId} {objs : IdSet} :
    (s.point v objs).1 = true ↔ ∃ o ∈ objs, o ∉ s.pts v :=
  PointerSets.addAll_fst

/-- A change of the points-to sets in favour of one value. -/
theorem Valid.withPointers (hv : s.Valid g₀) {p : PointerSets} {v : NodeId} {new : NodeId → Prop}
    (hp : ∀ w o, o ∈ p.pts w ↔ (w = v ∧ new o) ∨ o ∈ s.pts w)
    (hval : g₀.isValue v = true) (hobj : ∀ o, new o → s.graph.HasObj o) :
    Valid g₀ { s with pointers := p } :=
  { hv with
    pts := by
      intro w o ho
      rcases (hp w o).mp ho with ⟨rfl, ho⟩ | ho
      · exact ⟨hval, hobj o ho⟩
      · exact hv.pts ho
    filters := by
      intro st o ho
      obtain ⟨htyped, n, w, hn, hw, ho⟩ := hv.filters ho
      exact ⟨htyped, n, w, hn, hw, (hp w o).mpr (Or.inr ho)⟩ }

/-- A change of the points-to sets in favour of the value that the visited statement defines. -/
theorem evolves_target {p : PointerSets} {v : NodeId} {new : NodeId → Prop} {dirty : Bool}
    (hp : ∀ w o, o ∈ p.pts w ↔ (w = v ∧ new o) ∨ o ∈ s.pts w)
    (hflag : dirty = true ↔ ∃ o, new o ∧ o ∉ s.pts v) (htarget : Targets g₀ loc v) :
    Evolves g₀ loc dirty s { s with pointers := p } :=
  have hlearn : dirty = true → Learns s { s with pointers := p } := by
    intro hd
    obtain ⟨o, ho, hno⟩ := hflag.mp hd
    exact ⟨.pts v o, (hp v o).mpr (Or.inl ⟨rfl, ho⟩), hno⟩
  { Evolves.refl g₀ loc s with
    pts := fun ho => (hp _ _).mpr (Or.inr ho)
    ptsNew := by
      intro w o ho
      by_cases hold : o ∈ s.pts w
      · exact Or.inl hold
      · rcases (hp w o).mp ho with ⟨rfl, hnew⟩ | ho
        · exact Or.inr (Or.inr ⟨hflag.mpr ⟨o, hnew, hold⟩, htarget⟩)
        · exact absurd ho hold
    paid := Or.inl rfl
    dirtyPaid := hlearn }

theorem Valid.point (hv : s.Valid g₀) {v : NodeId} {objs : IdSet} (hval : g₀.isValue v = true)
    (hobj : ∀ o ∈ objs, s.graph.HasObj o) : Valid g₀ (s.point v objs).2 :=
  hv.withPointers (fun _ _ => mem_pts_point) hval hobj

/-- Hiding an object from the visited statement. -/
theorem evolves_hide (obj : NodeId) : Evolves g₀ loc false s (s.hide loc obj) :=
  { Evolves.refl g₀ loc s with
    filters := fun h => FilterSets.isFiltered_filter.mpr (Or.inr h)
    filtersNew := by
      intro st o ho
      rcases FilterSets.isFiltered_filter.mp ho with ⟨rfl, -⟩ | ho
      · exact Or.inr rfl
      · exact Or.inl ho
    paid := Or.inl rfl
    dirtyPaid := fun h => absurd h (by decide) }

theorem isFiltered_hide {st obj l o : NodeId} : (s.hide st obj).filters.isFiltered l o = true ↔
    (l = st ∧ o = obj) ∨ s.filters.isFiltered l o = true :=
  FilterSets.isFiltered_filter

theorem Valid.hide (hv : s.Valid g₀) (htyped : s.options.typed = true) {n : StmtNode}
    {ptr obj : NodeId} (hn : g₀.stmt loc = .ok n) (hptr : n.kind.pointer? = some ptr)
    (hobj : obj ∈ s.pts ptr) : Valid g₀ (s.hide loc obj) :=
  { hv with
    filters := by
      intro st o ho
      rcases isFiltered_hide.mp ho with ⟨rfl, rfl⟩ | ho
      · exact ⟨htyped, n, ptr, hn, hptr, hobj⟩
      · exact hv.filters ho }

/-- A change of the contents after the visited statement. -/
theorem evolves_after {f : FlowFacts} {dirty : Bool} (hins : f.ins = s.flow.ins)
    (hold : ∀ {l o x}, x ∈ s.flow.outs.setAt l o → x ∈ f.outs.setAt l o)
    (hnew : ∀ {l o x}, x ∈ f.outs.setAt l o → x ∈ s.flow.outs.setAt l o ∨ l = loc)
    (hflag : dirty = true → ∃ o x, x ∈ f.outs.setAt loc o ∧ x ∉ s.flow.outs.setAt loc o) :
    Evolves g₀ loc dirty s { s with flow := f } :=
  have hbefore : ∀ st o, Solver.contentsBefore { s with flow := f } st o = s.contentsBefore st o := by
    intro st o
    simp only [contentsBefore, hins]
  { Evolves.refl g₀ loc s with
    ptsNew := Or.inl
    before := fun h => by rw [hbefore]; exact h
    beforeNew := fun h => Or.inl (by rw [hbefore] at h; exact h)
    after := hold
    afterNew := hnew
    paid := Or.inl rfl
    dirtyPaid := by
      intro hd
      obtain ⟨o, x, hx, hnx⟩ := hflag hd
      exact ⟨.after loc o x, hx, hnx⟩ }

/-- A change of the contents before a statement, which is put on the worklist if there is one. -/
theorem evolves_before {f : FlowFacts} {changed : Bool} {dst : NodeId}
    (houts : f.outs = s.flow.outs)
    (hold : ∀ {l o x}, x ∈ s.flow.ins.setAt l o → x ∈ f.ins.setAt l o)
    (hnew : ∀ {l o x}, x ∈ f.ins.setAt l o → x ∈ s.flow.ins.setAt l o ∨ (l = dst ∧ changed = true))
    (hflag : changed = true → ∃ o x, x ∈ f.ins.setAt dst o ∧ x ∉ s.flow.ins.setAt dst o) :
    Evolves g₀ loc false s
      (if changed then Solver.enqueue { s with flow := f } [dst] else { s with flow := f }) := by
  have hafter : ∀ st o, Solver.contentsAfter { s with flow := f } st o = s.contentsAfter st o := by
    intro st o
    simp only [contentsAfter, houts]
  have hpend : ∀ {st}, st ∈ s.pending.items →
      st ∈ (Solver.enqueue { s with flow := f } [dst]).pending.items :=
    fun h => Worklist.mem_pushAll.mpr (Or.inr h)
  cases changed with
  | false =>
    rw [if_neg (by decide)]
    exact
    { Evolves.refl g₀ loc s with
      before := hold
      beforeNew := fun h => (hnew h).imp_right fun h => absurd h.2 (by decide)
      after := fun h => by rw [hafter]; exact h
      afterNew := fun h => Or.inl (by rw [hafter] at h; exact h)
      paid := Or.inl rfl
      dirtyPaid := fun h => absurd h (by decide) }
  | true =>
    rw [if_pos rfl]
    obtain ⟨o, x, hx, hnx⟩ := hflag rfl
    exact
    { Evolves.refl g₀ loc s with
      pending := hpend
      ptsNew := Or.inl
      before := hold
      beforeNew := by
        intro l o x hx
        rcases hnew hx with hx | ⟨rfl, -⟩
        · exact Or.inl hx
        · exact Or.inr (Worklist.mem_pushAll.mpr (Or.inl (by simp)))
      after := fun {st o x} h => (hafter st o).symm ▸ h
      afterNew := fun {st o x} h => Or.inl (hafter st o ▸ h)
      clones := Or.inl
      paid := Or.inr ⟨.before dst o x, hx, hnx⟩
      dirtyPaid := fun h => absurd h (by decide) }

theorem Valid.withFlow (hv : s.Valid g₀) {f : FlowFacts}
    (hbefore : ∀ {l o x}, x ∈ f.ins.setAt l o → x ∈ s.flow.ins.setAt l o ∨
      (l ∈ g₀.stmts.toList ∧ s.graph.HasObj o ∧ s.graph.HasObj x))
    (hafter : ∀ {l o x}, x ∈ f.outs.setAt l o → x ∈ s.flow.outs.setAt l o ∨
      (l ∈ g₀.stmts.toList ∧ s.graph.HasObj o ∧ s.graph.HasObj x))
    (howned : ∀ {l o x ob}, x ∈ f.ins.setAt l o ∨ x ∈ f.outs.setAt l o → s.graph.obj o = .ok ob →
      ob.isSpecial = false) : Valid g₀ { s with flow := f } :=
  { hv with
    before := fun hx => (hbefore hx).elim hv.before id
    after := fun hx => (hafter hx).elim hv.after id
    owned := howned }

end Changes

end PointsTo.Solver
