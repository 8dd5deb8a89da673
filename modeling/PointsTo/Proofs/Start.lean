import PointsTo.Proofs.Evolution

/-! The state from which an analysis starts.

    On a well-formed graph the start succeeds: all objects are known with their first types and the
    last statements that take their addresses, values point to their seeds and nowhere else, nothing
    is filtered or cloned, and all statements wait. -/

namespace PointsTo

/-- The type of an allocation before it is used. -/
def Memory.firstType (m : Memory) (types : Hierarchy) : Option TypeId :=
  match m.alloc with
  | .heap | .constant => none
  | .stack | .global | .special => types.canonical m.ty

/-- The type of an object before it is used. -/
def Graph.firstType (g : Graph) (types : Hierarchy) (o : ObjNode) : Option TypeId :=
  if o.isSpecial then none else (g.mem o.mem).firstType types

namespace Graph

variable {g : Graph} {obj st : NodeId}

/-- Does the statement take the address of the object? -/
def takesAddress (g : Graph) (obj st : NodeId) : Bool :=
  match g.stmt st with
  | .ok ⟨.addr o _, _⟩ => o == obj
  | _ => false

/-- The last statement that takes the address of the object. -/
def lastSite? (g : Graph) (obj : NodeId) : Option NodeId :=
  (g.stmts.toList.filter (g.takesAddress obj)).getLast?

theorem takesAddress_eq {n : StmtNode} (hn : g.stmt st = .ok n) :
    g.takesAddress obj st = true ↔ ∃ dst, n.kind = .addr obj dst := by
  obtain ⟨kind, ty⟩ := n
  unfold takesAddress
  rw [hn]
  cases kind <;> simp

theorem lastSite?_spec (hwf : g.WellFormed) (h : g.lastSite? obj = some st) :
    st ∈ g.stmts.toList ∧ ∃ n dst, g.stmt st = .ok n ∧ n.kind = .addr obj dst := by
  obtain ⟨hst, htakes⟩ := List.mem_filter.mp (List.mem_of_getLast? h)
  obtain ⟨n, hn⟩ := hwf.stmt hst
  obtain ⟨dst, hk⟩ := (takesAddress_eq hn).mp htakes
  exact ⟨hst, n, dst, hn, hk⟩

end Graph

namespace Solver

/-- What is known at the start. -/
structure Started (g₀ : Graph) (hierarchy : Hierarchy) (opts : Options) (s : Solver) : Prop where
  valid : s.Valid g₀
  types : s.types = hierarchy
  options : s.options = opts
  graph : s.heap.graph = g₀
  fieldLimit : s.heap.fieldLimit = opts.maxFieldLimit
  firstTypes : ∀ {id : NodeId} {o}, g₀.obj id = .ok o →
    s.heap.types[id]? = some (g₀.firstType hierarchy o)
  pts : ∀ {v o}, o ∈ s.pts v ↔ (v, o) ∈ g₀.seeds.toList
  before : ∀ {st o x}, x ∉ s.contentsBefore st o
  after : ∀ {st o x}, x ∉ s.contentsAfter st o
  filters : ∀ st o, s.filters.isFiltered st o = false
  clones : ∀ c : NodeId, s.heap.prototypes[c]? = none
  sites : ∀ x : NodeId, s.heap.sites[x]? = g₀.lastSite? x
  pending : ∀ {st}, st ∈ s.pending.items ↔ st ∈ g₀.stmts.toList

variable {g₀ : Graph} {types : Hierarchy} {options : Options}

/-- The state in which some objects are known. -/
def known (types : Hierarchy) (g₀ : Graph) (options : Options)
    (firstTypes : Std.TreeMap NodeId (Option TypeId)) (memObjects : IdTable)
    (sites : Std.TreeMap NodeId NodeId) : Solver :=
  { Solver.new types g₀ options with
    heap := { Heap.ofGraph g₀ options.maxFieldLimit with types := firstTypes, memObjects, sites } }

/-! ### Objects -/

theorem initialType_eq {s : Solver} {id : NodeId} {o : ObjNode} (ho : s.graph.obj id = .ok o) :
    s.initialType id = .ok (s.graph.firstType s.types o) := by
  unfold initialType Graph.firstType Memory.firstType
  simp only [ho, ok_bind]
  cases o.isSpecial with
  | true => rfl
  | false => cases (s.graph.mem o.mem).alloc <;> rfl

/-- What is known of the objects made known so far. -/
structure Registered (g₀ : Graph) (types : Hierarchy) (done : List NodeId)
    (firstTypes : Std.TreeMap NodeId (Option TypeId)) (memObjects : IdTable) : Prop where
  typed : ∀ {id o}, id ∈ done → g₀.obj id = .ok o → firstTypes[id]? = some (g₀.firstType types o)
  mem : ∀ {x m}, x ∈ memObjects.setAt m ↔ x ∈ done ∧ ∃ o, g₀.obj x = .ok o ∧ o.mem = m

theorem Registered.next {done : List NodeId} {T : Std.TreeMap NodeId (Option TypeId)} {M : IdTable}
    (hr : Registered g₀ types done T M) {id : NodeId} {o : ObjNode} (ho : g₀.obj id = .ok o) :
    Registered g₀ types (done ++ [id]) (T.insert id (g₀.firstType types o)) (M.addTo o.mem id).2 where
  typed := by
    intro id' o' hid' ho'
    rw [Std.TreeMap.getElem?_insert]
    by_cases heq : id = id'
    · subst heq
      rw [ho] at ho'
      injection ho' with ho'
      simp [ho']
    · rw [if_neg (by simpa [Nat.compare_eq_eq] using heq)]
      exact hr.typed (by simpa [Ne.symm heq] using hid') ho'
  mem := by
    intro x m
    rw [IdTable.mem_addTo, hr.mem]
    simp only [List.mem_append, List.mem_singleton]
    constructor
    · rintro (⟨rfl, rfl⟩ | ⟨hx, hm⟩)
      · exact ⟨Or.inr rfl, o, ho, rfl⟩
      · exact ⟨Or.inl hx, hm⟩
    · rintro ⟨hx | rfl, o', ho', hm⟩
      · exact Or.inr ⟨hx, o', ho', hm⟩
      · rw [ho] at ho'
        injection ho' with ho'
        exact Or.inl ⟨ho' ▸ hm.symm, rfl⟩

theorem registerObject_known {T : Std.TreeMap NodeId (Option TypeId)} {M : IdTable}
    {S : Std.TreeMap NodeId NodeId} {id : NodeId} {o : ObjNode} (ho : g₀.obj id = .ok o) :
    registerObject (known types g₀ options T M S) id =
      .ok (known types g₀ options (T.insert id (g₀.firstType types o)) (M.addTo o.mem id).2 S) := by
  have hgraph : (known types g₀ options T M S).heap.graph.obj id = .ok o := ho
  unfold registerObject
  rw [initialType_eq hgraph]
  simp only [Heap.register, hgraph, ok_bind]
  rfl

theorem registerObjects_spec (hwf : g₀.WellFormed) (types : Hierarchy) (options : Options) :
    ∃ T M, g₀.objects.toList.foldlM registerObject (Solver.new types g₀ options) =
        .ok (known types g₀ options T M ∅) ∧ Registered g₀ types g₀.objects.toList T M := by
  suffices h : ∃ s, g₀.objects.toList.foldlM registerObject (Solver.new types g₀ options) = .ok s ∧
      ∃ T M, s = known types g₀ options T M ∅ ∧ Registered g₀ types g₀.objects.toList T M by
    obtain ⟨_, hs, T, M, rfl, hr⟩ := h
    exact ⟨T, M, hs, hr⟩
  refine foldlM_succeeds
    (I := fun done s => ∃ T M, s = known types g₀ options T M ∅ ∧ Registered g₀ types done T M)
    ⟨∅, ∅, rfl, by simp, by simp [IdSet.not_mem_empty]⟩ ?_
  rintro done id rest _ hsplit ⟨T, M, rfl, hr⟩
  obtain ⟨o, ho⟩ := hwf.objects.mp (show id ∈ g₀.objects.toList by rw [hsplit]; simp)
  exact ⟨_, registerObject_known ho, _, _, rfl, hr.next ho⟩

/-! ### Sites and seeds -/

theorem registerSites_spec (hwf : g₀.WellFormed) (types : Hierarchy) (options : Options)
    (T : Std.TreeMap NodeId (Option TypeId)) (M : IdTable) :
    ∃ S : Std.TreeMap NodeId NodeId,
      g₀.stmts.toList.foldlM registerSite (known types g₀ options T M ∅) =
        .ok (known types g₀ options T M S) ∧ ∀ x : NodeId, S[x]? = g₀.lastSite? x := by
  suffices h : ∃ s, g₀.stmts.toList.foldlM registerSite (known types g₀ options T M ∅) = .ok s ∧
      ∃ S : Std.TreeMap NodeId NodeId, s = known types g₀ options T M S ∧
        ∀ x : NodeId, S[x]? = g₀.lastSite? x by
    obtain ⟨_, hs, S, rfl, hS⟩ := h
    exact ⟨S, hs, hS⟩
  refine foldlM_succeeds (I := fun done s => ∃ S : Std.TreeMap NodeId NodeId,
    s = known types g₀ options T M S ∧
      ∀ x : NodeId, S[x]? = (done.filter (g₀.takesAddress x)).getLast?)
    ⟨∅, rfl, by simp⟩ ?_
  rintro done st rest _ hsplit ⟨S, rfl, hS⟩
  have hst : st ∈ g₀.stmts.toList := by rw [hsplit]; simp
  obtain ⟨n, hn⟩ := hwf.stmt hst
  have hn' : (known types g₀ options T M S).graph.stmt st = .ok n := hn
  -- A statement that takes no address of an object leaves its site as it is.
  have hkeep : ∀ {x : NodeId}, (∀ dst, n.kind ≠ .addr x dst) →
      ((done ++ [st]).filter (g₀.takesAddress x)).getLast? = S[x]? := by
    intro x hne
    have hnot : ¬ g₀.takesAddress x st = true := fun h => by
      obtain ⟨dst, hk⟩ := (Graph.takesAddress_eq hn).mp h
      exact hne dst hk
    rw [List.filter_append, List.filter_cons_of_neg hnot, List.filter_nil, List.append_nil, hS]
  unfold registerSite
  simp only [hn', ok_bind]
  cases hk : n.kind with
  | addr obj dst =>
    refine ⟨_, rfl, S.insert obj st, rfl, fun x => ?_⟩
    rw [Std.TreeMap.getElem?_insert]
    split
    case isTrue heq =>
      obtain rfl : obj = x := Nat.compare_eq_eq.mp heq
      rw [List.filter_append, List.filter_cons_of_pos ((Graph.takesAddress_eq hn).mpr ⟨dst, hk⟩),
        List.filter_nil, List.getLast?_concat]
    case isFalse hne =>
      refine (hkeep fun dst' hk' => hne ?_).symm
      rw [hk, StmtKind.addr.injEq] at hk'
      exact Nat.compare_eq_eq.mpr hk'.1
  | copy _ _ _ | gep _ _ _ | load _ _ | store _ _ | phi _ _ =>
    exact ⟨_, rfl, S, rfl, fun x => (hkeep fun dst h => by rw [hk] at h; cases h).symm⟩

theorem mem_addSeeds {p : PointerSets} {seeds : List (NodeId × NodeId)} {v o : NodeId} :
    o ∈ (addSeeds p seeds).pts v ↔ (v, o) ∈ seeds ∨ o ∈ p.pts v := by
  unfold addSeeds
  induction seeds generalizing p with
  | nil => simp
  | cons seed seeds ih =>
    rw [List.foldl_cons, ih, PointerSets.mem_pts_add, List.mem_cons, Prod.ext_iff]
    tauto

/-! ### The start -/

/-- The heap in which all objects of a graph are known, and nothing else. -/
theorem valid_known (hwf : g₀.WellFormed) {tys : TypeId → Prop} {limit : Nat}
    {T : Std.TreeMap NodeId (Option TypeId)} {M : IdTable} {S : Std.TreeMap NodeId NodeId}
    (hr : Registered g₀ types g₀.objects.toList T M) (hS : ∀ x : NodeId, S[x]? = g₀.lastSite? x) :
    Heap.Valid g₀ tys { Heap.ofGraph g₀ limit with types := T, memObjects := M, sites := S } where
  grows := .refl g₀
  objects := hwf.objects
  objects_nodup := hwf.objects_nodup
  mem := hwf.mem
  typed := by
    rintro id ⟨o, ho⟩
    exact ⟨_, hr.typed (hwf.objects.mpr ⟨o, ho⟩) ho⟩
  clone := by simp [Heap.ofGraph]
  cloneType := by simp [Heap.ofGraph]
  clones := by simp [Heap.ofGraph, IdSet.not_mem_empty]
  cloneInj := by simp [Heap.ofGraph]
  root ho _ _ := Graph.obj_lt_size ho
  fields := by
    intro f r k
    refine ⟨fun hf => absurd hf ?_, ?_⟩
    · simp [Heap.ofGraph, IdSet.not_mem_empty]
    · rintro ⟨o, ho, hk⟩
      have hwhole := hwf.whole ho
      simp [ObjNode.isField, hk] at hwhole
  slot := by simp [Heap.ofGraph]
  memFields := by
    intro f m k
    refine ⟨fun hf => absurd hf ?_, ?_⟩
    · simp [Heap.ofGraph, IdSet.not_mem_empty]
    · rintro ⟨o, r, ho, -, hk⟩
      have hwhole := hwf.whole ho
      simp [ObjNode.isField, hk] at hwhole
  memObjects := by
    intro x m
    refine hr.mem.trans ⟨And.right, ?_⟩
    rintro ⟨o, ho, hm⟩
    exact ⟨hwf.objects.mpr ⟨o, ho⟩, o, ho, hm⟩
  fieldOf ho hk := by
    have hwhole := hwf.whole ho
    simp [ObjNode.isField, hk] at hwhole
  opened ho hfield := by
    rw [hwf.whole ho] at hfield
    exact absurd hfield (by decide)
  fieldInj ho _ hk := by
    have hwhole := hwf.whole ho
    simp [ObjNode.isField, hk] at hwhole
  sites := by
    intro x st hst
    obtain ⟨hmem, n, dst, hn, hk⟩ := Graph.lastSite?_spec hwf ((hS x).symm.trans hst)
    exact ⟨hwf.addr hmem hn hk, hmem⟩
  cloneSite := by simp [Heap.ofGraph]
  retrievers := by simp [Heap.ofGraph, IdSet.not_mem_empty]
  count := rfl

/-- An analysis of a well-formed graph starts. -/
theorem start_spec (hwf : g₀.WellFormed) (types : Hierarchy) (options : Options) :
    ∃ s, (Solver.new types g₀ options).start = .ok s ∧ Started g₀ types options s := by
  obtain ⟨T, M, hobjs, hr⟩ := registerObjects_spec hwf types options
  obtain ⟨S, hsites, hS⟩ := registerSites_spec hwf types options T M
  let s : Solver := { known types g₀ options T M S with pointers := addSeeds ∅ g₀.seeds.toList }
  have hpts : ∀ {v o}, o ∈ s.pts v ↔ (v, o) ∈ g₀.seeds.toList := by
    intro v o
    refine mem_addSeeds.trans ?_
    simp [IdSet.not_mem_empty]
  have hbefore : ∀ {st o x}, x ∉ s.contentsBefore st o := by
    intro st o x hx
    rw [contentsBefore, show s.flow.ins = ∅ from rfl, IdGrid.setAt_empty] at hx
    exact IdSet.not_mem_empty x hx
  have hafter : ∀ {st o x}, x ∉ s.contentsAfter st o := by
    intro st o x hx
    rw [contentsAfter, show s.flow.outs = ∅ from rfl, IdGrid.setAt_empty] at hx
    exact IdSet.not_mem_empty x hx
  have hfilters : ∀ st o, s.filters.isFiltered st o = false := FilterSets.isFiltered_empty
  have hclones : ∀ c : NodeId, s.heap.prototypes[c]? = none := fun c => by
    show (∅ : Std.TreeMap NodeId NodeId)[c]? = none
    simp
  have hvalid : s.Valid g₀ :=
    { heap := valid_known hwf hr hS
      pts := fun ho => hwf.seeds (hpts.mp ho)
      before := fun hx => absurd hx hbefore
      after := fun hx => absurd hx hafter
      pending := fun hst => absurd hst (by simp [s, known, Solver.new])
      filters := fun {st o} hf => absurd hf (by rw [hfilters]; decide)
      clones := fun {c p} hc => absurd hc (by rw [hclones]; simp)
      owned := fun hx _ => absurd hx (not_or.mpr ⟨hbefore, hafter⟩) }
  refine ⟨s.enqueue g₀.stmts.toList, ?_, hvalid.enqueue fun _ h => h, rfl, rfl, rfl, rfl,
    fun ho => hr.typed (hwf.objects.mpr ⟨_, ho⟩) ho, hpts, hbefore, hafter, hfilters, hclones, hS, ?_⟩
  · unfold start
    rw [show (Solver.new types g₀ options).graph.objects = g₀.objects from rfl, hobjs]
    simp only [ok_bind]
    rw [show (known types g₀ options T M ∅).graph.stmts = g₀.stmts from rfl, hsites]
    rfl
  · intro st
    refine Worklist.mem_pushAll.trans ?_
    simp [s, known, Solver.new]

theorem started_of_start (hwf : g₀.WellFormed) {types : Hierarchy} {options : Options} {s : Solver}
    (h : (Solver.new types g₀ options).start = .ok s) : Started g₀ types options s := by
  obtain ⟨s', hstart, hs⟩ := start_spec hwf types options
  obtain rfl := ok_unique h hstart
  exact hs

end Solver

end PointsTo
