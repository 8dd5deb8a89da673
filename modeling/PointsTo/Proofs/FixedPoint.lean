import PointsTo.Proofs.Termination

/-! What holds when nothing waits any more.

    A statement that does not wait has nothing left to do; so when the worklist is empty, the
    value-flow constraints of all statements and edges hold at once, whatever was visited when. -/

namespace PointsTo.Solver

variable {g₀ : Graph} {types : Hierarchy} {options : Options} {s₀ s : Solver}

/-- What leaves the statement along an edge has arrived at its end, for all objects that the edge
    carries; where an allocation lost its fields only during the analysis, for the objects of the
    label and their clones. -/
def FlowsArrive (g₀ : Graph) (s : Solver) (st : NodeId) (n : StmtNode) : Prop :=
  ∀ t label, (t, label) ∈ g₀.indirectSuccessors st → ∃ objs, s.heap.expand label = .ok objs ∧
    ∀ o ∈ objs, ∀ ob, s.graph.obj o = .ok ob →
      (s.heap.prototype o ∈ label ∨ ¬ Collapsed g₀ s ob.mem) →
      ∀ x ∈ s.flow.leaving n.kind.isStore st o, x ∈ s.contentsBefore t o

/-- Objects of the program are no clones. -/
theorem Reached.prototype_eq (hs : Started g₀ types options s₀) (hr : Reached g₀ s₀ s) {l : NodeId}
    (hl : g₀.HasObj l) : s.heap.prototypes[l]? = none :=
  (hr.heap.prototypes (hs.graph ▸ hl)).trans (hs.clones l)

/-- What an object of the program brings along comes from that object, unless fields were lost. -/
theorem Reached.brings (hwf : g₀.WellFormed) (hs : Started g₀ types options s₀)
    (hr : Reached g₀ s₀ s) {l o : NodeId} {ob : ObjNode} (hl : g₀.HasObj l)
    (ho : s.graph.obj o = .ok ob) (hnot : ¬ Collapsed g₀ s ob.mem) (hb : s.heap.Brings l o) :
    s.heap.prototype o = l := by
  have hnone := hr.prototype_eq hs hl
  rcases hb with rfl | hclone | ⟨ol, hol, ⟨r, k, hk, -⟩ | ⟨hfi, hmem⟩⟩
  · rw [Heap.prototype_of_none hnone, Heap.prototype_of_none hnone]
  · rw [Heap.prototype_of_some hclone, Heap.prototype_of_none hnone]
  · obtain ⟨ol', hol'⟩ := hl
    obtain rfl := ok_unique hol (hr.valid.heap.grows.obj hol')
    have hwhole := hwf.whole hol'
    simp [ObjNode.isField, hk] at hwhole
  · obtain ⟨ol', hol'⟩ := hl
    obtain rfl := ok_unique hol (hr.valid.heap.grows.obj hol')
    obtain ⟨ob', hob', hm⟩ := hr.valid.heap.memObjects.mp hmem
    obtain rfl := ok_unique ho hob'
    refine hr.valid.prototype_of_collapsed hwf hol' ho hm ?_
    by_contra hfi₀
    exact hnot ⟨by rw [hm]; simpa using hfi₀, by rw [hm]; exact hfi⟩

theorem Reached.flowsArrive (hwf : g₀.WellFormed) (hs : Started g₀ types options s₀)
    (hr : Reached g₀ s₀ s) {st : NodeId} {n : StmtNode} (hc : EdgesCarry g₀ s st n) :
    FlowsArrive g₀ s st n := by
  intro t label hedge
  have hlabel := (hwf.indirect hedge).2
  obtain ⟨objs, hexpand, hmem⟩ := Heap.expand_spec hr.valid.heap
    fun l hl => hr.valid.heap.grows.hasObj (hlabel l hl)
  refine ⟨objs, hexpand, fun o ho ob hob hwhy => hc t label hedge o ?_⟩
  rcases hwhy with hproto | hnot
  · exact hproto
  rcases (hmem o).mp ho with ho | ⟨l, hl, hb⟩
  · rwa [Heap.prototype_of_none (hr.prototype_eq hs (hlabel o ho))]
  · rwa [hr.brings hwf hs (hlabel l hl) hob hnot hb]

/-- No update is lost: when nothing waits, in either analysis and with any options, every statement
    has passed on all that it has to, and so has every indirect edge. -/
theorem constraints_hold_at_end {d : ProgramDesc} {p : Program} (hbuild : Program.build d = .ok p)
    (types : Hierarchy) (options : Options) {s t : Solver} {k : Nat}
    (hstart : (Solver.new types p.graph options).start = .ok s) (hrun : Run s k t)
    (hend : t.pending.items = []) :
    ∀ st ∈ p.graph.stmts.toList, ∃ n, p.graph.stmt st = .ok n ∧
      Constraint p.graph t st n ∧ FlowsArrive p.graph t st n := by
  have hwf := Program.wellFormed_of_build hbuild
  obtain ⟨s', hstart', hs⟩ := start_spec hwf types options
  obtain rfl := ok_unique hstart hstart'
  have hr := hrun.reached hwf hs.reached
  intro st hst
  obtain ⟨n, hn⟩ := hwf.stmt hst
  obtain ⟨hset, hcarry⟩ := hr.settled hst hn (by rw [hend]; exact List.not_mem_nil)
  exact ⟨n, hn, hset.1, hr.flowsArrive hwf hs hcarry⟩

/-- Memory of no type of its own that is written as an `A` and read as an `A` and as a `B`. -/
def reusedMemory : ProgramDesc where
  types := [{ name := some "A", sizeBits := 32, kind := .record .structWord [.field "x" 2] },
    { name := some "B", sizeBits := 32, kind := .record .structWord [.field "y" 3] },
    { name := some "int", sizeBits := 32, kind := .basic .signed },
    { name := some "float", sizeBits := 32, kind := .basic .float }]
  objects := [{ name := "h", alloc := .heap }, { name := "o", alloc := .stack }]
  values := ["p", "q", "r", "u"]
  statements := [{ kind := .addr "h" "p" }, { kind := .addr "o" "q" },
    { id := some "s", kind := .store "q" "p" (some 0) },
    { id := some "a", kind := .load "p" "r" (some 0) },
    { id := some "b", kind := .load "p" "u" (some 1) }]
  flows := [{ src := "s", dst := "a", objs := ["h"] }, { src := "s", dst := "b", objs := ["h"] }]

/-- The types that a program declares. -/
def declaredTypes (d : ProgramDesc) : Hierarchy :=
  (Hierarchy.ofTable ⟨d.types.toArray⟩).toOption.getD .empty

theorem reusedMemory_constraints_hold : ∃ p s k t, Program.build reusedMemory = .ok p ∧
    (Solver.new (declaredTypes reusedMemory) p.graph {}).start = .ok s ∧ Run s k t ∧
    t.pending.items = [] ∧ ∀ st ∈ p.graph.stmts.toList, ∃ n, p.graph.stmt st = .ok n ∧
      Constraint p.graph t st n ∧ FlowsArrive p.graph t st n := by
  obtain ⟨p, s, k, t, hbuild, hstart, -, hrun, hend, -⟩ :=
    exists_end reusedMemory (declaredTypes reusedMemory) {} (fun _ _ => true) (by decide +kernel)
  exact ⟨p, s, k, t, hbuild, hstart, hrun, hend,
    constraints_hold_at_end hbuild (declaredTypes reusedMemory) {} hstart hrun hend⟩

end PointsTo.Solver
